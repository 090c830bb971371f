import AnnotatedSource.Proofs.Span
import AnnotatedSource.Proofs.Text.Segmentation
import AnnotatedSource.Source

/-!
The interpreter line.  A text names its interpreter exactly when the first of its lines is the mark
with something behind it.  Where the first comment is a line comment that says the same, a source
holds it as the interpreter line; every other comment, the code tokens and the tree are held as they
were reported.
-/

set_option autoImplicit false
set_option relaxedAutoImplicit false

namespace AnnotatedSource

namespace Text

namespace Lines

theorem contents_close (lines : Lines) (content : List Char) (terminator : Terminator) :
    (lines.close content terminator).contents = content :: lines.contents := rfl

theorem head?_contents_extend (lines : Lines) (c : Char) :
    (lines.extend c).contents.head? = lines.contents.head?.map (c :: ·) := by
  obtain ⟨closed, last⟩ := lines
  cases closed <;> rfl

theorem head?_contents_ofText (text : List Char) :
    (ofText text).contents.head? = some (text.takeWhile fun c => !endsLine c) := by
  fun_induction ofText text with
  | case1 => rfl
  | case2 rest ih =>
    have ends : endsLine '\r' = true := by decide
    simp [contents_close, ends]
  | case3 c rest _ terminator found ih =>
    have ends : endsLine c = true := by rw [endsLine, found, Option.isSome_some]
    simp [contents_close, ends]
  | case4 c rest _ stays ih =>
    have inLine : endsLine c = false := endsLine_eq_false_iff.2 stays
    rw [head?_contents_extend, ih]
    simp [inLine]

end Lines

theorem interpreter?_eq_some_iff {text payload : List Char} :
    interpreter? text = some payload ↔
      payload ≠ [] ∧ (Lines.ofText text).contents.head? = some ('#' :: '!' :: payload) := by
  rw [Lines.head?_contents_ofText, Option.some_inj]
  unfold interpreter?
  split
  · next rest =>
    have first : ('#' :: '!' :: rest).takeWhile (fun c => !endsLine c) =
        '#' :: '!' :: rest.takeWhile fun c => !endsLine c := by
      rw [List.takeWhile_cons_of_pos (by decide), List.takeWhile_cons_of_pos (by decide)]
    rw [first]
    dsimp only
    split
    · next silent =>
      rw [List.isEmpty_iff] at silent
      simp [silent, eq_comm]
    · next spoken =>
      rw [List.isEmpty_iff] at spoken
      constructor
      · intro found
        obtain rfl := Option.some.inj found
        exact ⟨spoken, rfl⟩
      · rintro ⟨-, same⟩
        rw [(List.cons.inj (List.cons.inj same).2).2]
  · next unmarked =>
    refine iff_of_false (by simp) ?_
    rintro ⟨-, first⟩
    obtain ⟨rest, split⟩ := List.takeWhile_prefix (l := text) fun c => !endsLine c
    rw [first] at split
    exact unmarked (payload ++ rest) split.symm

end Text

namespace Source

/-- A comment is the interpreter line of a text: a line comment that says something, and says it on
the first line of the text, behind the mark of an interpreter line. -/
def IsInterpreter (text : List Char) (comment : Token) : Prop :=
  comment.kind = .line ∧ comment.value ≠ "" ∧
    (Text.Lines.ofText text).contents.head? = some ('#' :: '!' :: comment.value.toList)

instance (text : List Char) (comment : Token) : Decidable (IsInterpreter text comment) :=
  inferInstanceAs (Decidable (_ ∧ _ ∧ _))

theorem isInterpreter_iff {text : List Char} {comment : Token} :
    IsInterpreter text comment ↔
      comment.kind = .line ∧ Text.interpreter? text = some comment.value.toList := by
  rw [IsInterpreter, Text.interpreter?_eq_some_iff, ne_eq, ne_eq, String.toList_eq_nil_iff]

theorem recognizeInterpreter_eq_mapIdx (text : List Char) (comments : List Token) :
    recognizeInterpreter text comments = comments.mapIdx fun index comment =>
      if index = 0 ∧ IsInterpreter text comment then { comment with kind := .shebang }
      else comment := by
  cases comments with
  | nil => rfl
  | cons first rest =>
    have others : (rest.mapIdx fun index comment =>
        if index + 1 = 0 ∧ IsInterpreter text comment then { comment with kind := .shebang }
        else comment) = rest := by
      apply List.ext_getElem?
      simp
    rw [List.mapIdx_cons, others]
    by_cases recognized : IsInterpreter text first
    · rw [recognizeInterpreter, if_pos (isInterpreter_iff.1 recognized), if_pos ⟨rfl, recognized⟩]
    · rw [recognizeInterpreter, if_neg (mt isInterpreter_iff.2 recognized),
        if_neg fun both => recognized both.2]

theorem eq_unmarked (raw : List Char) :
    raw = '\uFEFF' :: Text.unmarked raw ∨
      raw.head? ≠ some '\uFEFF' ∧ raw = Text.unmarked raw := by
  by_cases marked : raw.head? = some '\uFEFF'
  · obtain ⟨text, rfl⟩ := List.head?_eq_some_iff.1 marked
    exact .inl rfl
  · refine .inr ⟨marked, ?_⟩
    rw [Text.unmarked, Text.isMarked, if_neg]
    rwa [beq_iff_eq]

/-- A byte-order mark in front hides no interpreter line. -/
example : IsInterpreter (Text.unmarked "\uFEFF#!node\r\nf()".toList)
    ⟨.line, "node", .ofWidth 0 6, .zero⟩ := by decide

end Source

end AnnotatedSource
