import AnnotatedSource.Proofs.Text.Segmentation
import AnnotatedSource.Text.Gap
import Mathlib.Data.List.Infix

/-!
What is left of a gap.  Taking comments out of a text takes out a block comment on one line that the
text starts with, keeps the first character of any other start, and keeps every character that ends
a line.
-/

set_option autoImplicit false
set_option relaxedAutoImplicit false

namespace AnnotatedSource.Text

theorem endsLine_iff {c : Char} :
    endsLine c = true ↔ c = '\r' ∨ c = '\n' ∨ c = '\u2028' ∨ c = '\u2029' := by
  unfold endsLine Terminator.ofChar?
  constructor
  · intro ends
    split_ifs at ends <;> simp_all
  · rintro (rfl | rfl | rfl | rfl) <;> rfl

theorem isBlank_of_endsLine {c : Char} (ends : endsLine c = true) : isBlank c = true := by
  rcases endsLine_iff.1 ends with rfl | rfl | rfl | rfl <;> decide

theorem endsLine_of_mem_chars {terminator : Terminator} {c : Char}
    (member : c ∈ terminator.chars) : endsLine c = true := by
  cases terminator <;> simp only [Terminator.chars, List.mem_cons, List.not_mem_nil] at member <;>
    rw [endsLine_iff] <;> tauto

/-- A text that holds no end of a block comment. -/
def Unclosed (body : List Char) : Prop := ¬['*', '/'] <:+: body

instance : DecidablePred Unclosed := fun _ => inferInstanceAs (Decidable (¬_))

theorem unclosed_nil : Unclosed [] := by
  intro closed
  have length := closed.length_le
  simp at length

theorem unclosed_cons_iff {c : Char} {body : List Char} :
    Unclosed (c :: body) ↔ ¬(c = '*' ∧ body.head? = some '/') ∧ Unclosed body := by
  rw [Unclosed, Unclosed, List.infix_cons_iff, List.cons_prefix_cons, not_or,
    List.singleton_prefix_iff_head?_eq_some]
  simp only [eq_comm]

/-- The body of a block comment that stays on one line. -/
structure OneLineBody (body : List Char) : Prop where
  unclosed : Unclosed body
  inLine : ∀ c ∈ body, endsLine c = false

theorem oneLineBody_nil : OneLineBody [] := ⟨unclosed_nil, by simp⟩

theorem oneLineBody_cons_iff {c : Char} {body : List Char} :
    OneLineBody (c :: body) ↔
      ¬(c = '*' ∧ body.head? = some '/') ∧ endsLine c = false ∧ OneLineBody body := by
  constructor
  · rintro ⟨unclosed, inLine⟩
    rw [unclosed_cons_iff] at unclosed
    rw [List.forall_mem_cons] at inLine
    exact ⟨unclosed.1, inLine.1, unclosed.2, inLine.2⟩
  · rintro ⟨notEnd, stays, unclosed, inLine⟩
    exact ⟨unclosed_cons_iff.2 ⟨notEnd, unclosed⟩, List.forall_mem_cons.2 ⟨stays, inLine⟩⟩

theorem afterComment?_append {body rest : List Char} (h : OneLineBody body) :
    afterComment? (body ++ '*' :: '/' :: rest) = some rest := by
  induction body with
  | nil => rfl
  | cons c body ih =>
    obtain ⟨notEnd, stays, behind⟩ := oneLineBody_cons_iff.1 h
    rw [List.cons_append, afterComment?, if_neg (by simp [stays]), ih behind]
    rintro tail rfl follows
    apply notEnd
    refine ⟨rfl, ?_⟩
    cases body with
    | nil => simp at follows
    | cons next body => rw [List.head?_cons, (List.cons.inj follows).1]

theorem afterComment?_eq_some_iff {text rest : List Char} :
    afterComment? text = some rest ↔
      ∃ body, OneLineBody body ∧ text = body ++ '*' :: '/' :: rest := by
  constructor
  · intro h
    fun_induction afterComment? text with
    | case1 => contradiction
    | case2 after =>
      cases h
      exact ⟨[], oneLineBody_nil, rfl⟩
    | case3 => contradiction
    | case4 c after notEnd stays ih =>
      obtain ⟨body, oneLine, rfl⟩ := ih h
      refine ⟨c :: body, oneLineBody_cons_iff.2 ⟨?_, by simpa using stays, oneLine⟩, rfl⟩
      rintro ⟨rfl, follows⟩
      obtain ⟨tail, rfl⟩ := List.head?_eq_some_iff.1 follows
      exact notEnd _ rfl rfl
  · rintro ⟨body, oneLine, rfl⟩
    exact afterComment?_append oneLine

def commented (body : List Char) : List Char := '/' :: '*' :: (body ++ ['*', '/'])

theorem commented_append (body rest : List Char) :
    commented body ++ rest = '/' :: '*' :: (body ++ '*' :: '/' :: rest) := by
  simp [commented]

theorem withoutComments_commented {body : List Char} (h : OneLineBody body) (rest : List Char) :
    withoutComments (commented body ++ rest) = withoutComments rest := by
  rw [commented_append, withoutComments]
  split
  · next found =>
    rw [afterComment?_append h] at found
    obtain rfl := Option.some.inj found
    rfl
  · next missed =>
    rw [afterComment?_append h] at missed
    contradiction

theorem withoutComments_cons {c : Char} (h : c ≠ '/') (rest : List Char) :
    withoutComments (c :: rest) = c :: withoutComments rest := by
  rw [withoutComments]
  rintro body rfl -
  exact h rfl

theorem mem_withoutComments {text : List Char} {c : Char} (ends : endsLine c = true)
    (member : c ∈ text) : c ∈ withoutComments text := by
  fun_induction withoutComments text with
  | case1 => exact member
  | case2 body rest found _ ih =>
    apply ih
    obtain ⟨inner, oneLine, rfl⟩ := afterComment?_eq_some_iff.1 found
    have notSlash : c ≠ '/' := by rintro rfl; contradiction
    have notStar : c ≠ '*' := by rintro rfl; contradiction
    have notInner : c ∉ inner := by
      intro inside
      rw [oneLine.inLine c inside] at ends
      contradiction
    simpa [notSlash, notStar, notInner] using member
  | case3 body missed ih =>
    rcases List.mem_cons.1 member with rfl | behind
    · exact List.mem_cons_self
    · exact List.mem_cons_of_mem _ (ih behind)
  | case4 other rest _ ih =>
    rcases List.mem_cons.1 member with rfl | behind
    · exact List.mem_cons_self
    · exact List.mem_cons_of_mem _ (ih behind)

theorem isSpaced_of_endsLine {gap : List Char} {c : Char} (member : c ∈ gap)
    (ends : endsLine c = true) : isSpaced gap = true := by
  rw [isSpaced, List.any_eq_true]
  exact ⟨c, mem_withoutComments ends member, isBlank_of_endsLine ends⟩

theorem isSpaced_commented {body : List Char} (h : OneLineBody body) (rest : List Char) :
    isSpaced (commented body ++ rest) = isSpaced rest := by
  rw [isSpaced, isSpaced, withoutComments_commented h]

theorem isSpaced_cons_of_isBlank {c : Char} (blank : isBlank c = true) (rest : List Char) :
    isSpaced (c :: rest) = true := by
  have notSlash : c ≠ '/' := by
    rintro rfl
    revert blank
    decide
  rw [isSpaced, withoutComments_cons notSlash, List.any_cons, blank, Bool.true_or]

end AnnotatedSource.Text
