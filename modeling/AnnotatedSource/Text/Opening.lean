import AnnotatedSource.Text.Lines

/-!
What may open a text: a byte-order mark, which is no part of the text proper, and then a line that
names the interpreter of a script.
-/

set_option autoImplicit false
set_option relaxedAutoImplicit false

namespace AnnotatedSource.Text

def isMarked (raw : List Char) : Bool := raw.head? == some '\uFEFF'

/-- A text without the byte-order mark it may start with. -/
def unmarked (raw : List Char) : List Char := if isMarked raw then raw.tail else raw

/-- What the interpreter line says after its mark, when a text opens with one that says
something. -/
def interpreter? : List Char → Option (List Char)
  | '#' :: '!' :: rest =>
    let line := rest.takeWhile fun c => !endsLine c
    if line.isEmpty then none else some line
  | _ => none

end AnnotatedSource.Text
