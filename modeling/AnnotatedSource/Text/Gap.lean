import AnnotatedSource.Text.Blank
import AnnotatedSource.Text.Lines

/-!
The text between two tokens.  Block comments that stay on one line take no room there, so a gap is
spaced when white space is left after they are taken out.
-/

set_option autoImplicit false
set_option relaxedAutoImplicit false

namespace AnnotatedSource.Text

/-- What follows the first end of a block comment, if it comes before the line ends. -/
def afterComment? : List Char → Option (List Char)
  | [] => none
  | '*' :: '/' :: rest => some rest
  | c :: rest => if endsLine c then none else afterComment? rest

theorem length_afterComment?_lt {text rest : List Char} (h : afterComment? text = some rest) :
    rest.length < text.length := by
  fun_induction afterComment? text with
  | case1 => contradiction
  | case2 after =>
    cases h
    simp only [List.length_cons]
    omega
  | case3 => contradiction
  | case4 c after _ _ ih =>
    have shorter := ih h
    simp only [List.length_cons]
    omega

/-- A text without its block comments that stay on one line, each taken out from its first opening
to the first end after it. -/
def withoutComments : List Char → List Char
  | [] => []
  | '/' :: '*' :: body =>
    match h : afterComment? body with
    | some rest =>
      have := length_afterComment?_lt h
      withoutComments rest
    | none => '/' :: withoutComments ('*' :: body)
  | c :: rest => c :: withoutComments rest
termination_by text => text.length

/-- Whether white space is left in a gap without its one-line block comments. -/
def isSpaced (gap : List Char) : Bool := (withoutComments gap).any isBlank

end AnnotatedSource.Text
