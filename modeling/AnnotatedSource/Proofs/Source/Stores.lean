import AnnotatedSource.Proofs.TokenSeq.Contents
import AnnotatedSource.Proofs.TokenSeq.Merge
import AnnotatedSource.Source
import AnnotatedSource.Tree.Shape

/-!
The two token sequences of a source.  The code tokens and the stream of code tokens and comments are
searched apart from each other, yet what is found in one is what is found in the other with the
comments left out.
-/

set_option autoImplicit false
set_option relaxedAutoImplicit false

namespace AnnotatedSource.Source

open TokenSeq (codeOf)

/-- The stream of a source is in order, and holds the source's code tokens and comments. -/
structure Agreeing (source : Source) : Prop where
  separated : source.stream.Separated
  inOrder : source.tokens.InOrder
  codeOf_stream : codeOf source.stream.tokens.toList = source.tokens.tokens.toList
  mem_comments_iff : ∀ lexeme, lexeme ∈ source.comments ↔
    lexeme ∈ source.stream.tokens.toList ∧ lexeme.isComment = true

theorem map_span_recognizeInterpreter (text : List Char) (comments : List Token) :
    (recognizeInterpreter text comments).map Token.span = comments.map Token.span := by
  cases comments with
  | nil => rfl
  | cons first rest =>
    rw [recognizeInterpreter]
    split <;> rfl

theorem isComment_of_mem_recognizeInterpreter {text : List Char} {comments : List Token}
    (areComments : ∀ comment ∈ comments, comment.isComment = true) {comment : Token}
    (member : comment ∈ recognizeInterpreter text comments) : comment.isComment = true := by
  cases comments with
  | nil => contradiction
  | cons first rest =>
    rw [recognizeInterpreter] at member
    split at member
    · rcases List.mem_cons.1 member with rfl | inRest
      · rfl
      · exact areComments comment (List.mem_cons_of_mem first inRest)
    · exact areComments comment member

variable {raw : List Char} {tree : Tree} {tokens comments : List Token} {source : Source}

theorem parts_of_make (made : make raw tree (some tokens) (some comments) = .ok source) :
    source.tokens = ⟨tokens.toArray⟩ ∧
      source.comments = recognizeInterpreter (Text.unmarked raw) comments ∧
      source.stream = TokenSeq.merge tokens source.comments := by
  obtain rfl := Except.ok.inj made
  exact ⟨rfl, rfl, rfl⟩

theorem agreeing_of_make (made : make raw tree (some tokens) (some comments) = .ok source)
    (areCode : ∀ token ∈ tokens, token.isComment = false)
    (areComments : ∀ comment ∈ comments, comment.isComment = true)
    (ordered : tokens.Pairwise fun left right => left.span.start ≤ right.span.start)
    (apart : Span.AllApart ((tokens ++ comments).map Token.span)) : source.Agreeing := by
  obtain ⟨tokens_eq, comments_eq, stream_eq⟩ := parts_of_make made
  have remarks : ∀ comment ∈ source.comments, comment.isComment = true := by
    intro comment member
    rw [comments_eq] at member
    exact isComment_of_mem_recognizeInterpreter areComments member
  have streamApart : Span.AllApart ((tokens ++ source.comments).map Token.span) := by
    rw [comments_eq, List.map_append, map_span_recognizeInterpreter, ← List.map_append]
    exact apart
  have tokensApart : Span.AllApart (tokens.map Token.span) :=
    apart.of_sublist ((List.sublist_append_left tokens comments).map Token.span)
  refine ⟨?_, ?_, ?_, ?_⟩
  · rw [stream_eq]
    exact TokenSeq.separated_merge streamApart
  · rw [tokens_eq]
    exact (TokenSeq.separated_of_allApart tokensApart ordered).inOrder
  · rw [stream_eq, tokens_eq]
    exact TokenSeq.codeOf_merge streamApart ordered areCode remarks
  · intro lexeme
    rw [stream_eq, TokenSeq.mem_merge_iff]
    constructor
    · intro member
      exact ⟨.inr member, remarks lexeme member⟩
    · rintro ⟨inTokens | inComments, isComment⟩
      · rw [areCode lexeme inTokens] at isComment
        contradiction
      · exact inComments

namespace Agreeing

theorem filter_tokens (agreeing : source.Agreeing) (holds : Token → Bool) :
    source.tokens.tokens.toList.filter holds =
      codeOf (source.stream.tokens.toList.filter holds) := by
  rw [← agreeing.codeOf_stream]
  exact List.filter_comm _ _ _

theorem enclosed_eq (agreeing : source.Agreeing) (target : Span) :
    source.tokens.enclosed target = codeOf (source.stream.enclosed target) := by
  rw [agreeing.inOrder.enclosed_eq_filter, agreeing.separated.inOrder.enclosed_eq_filter]
  exact agreeing.filter_tokens _

theorem between_eq (agreeing : source.Agreeing) (left right : Span) :
    source.tokens.between left right = codeOf (source.stream.between left right) := by
  rw [agreeing.inOrder.between_eq_filter, agreeing.separated.inOrder.between_eq_filter]
  exact agreeing.filter_tokens _

theorem before?_eq (agreeing : source.Agreeing) (target : Span) :
    source.tokens.before? target = (codeOf (source.stream.upTo target)).getLast? := by
  rw [← TokenSeq.getLast?_upTo, agreeing.inOrder.upTo_eq_filter,
    agreeing.separated.inOrder.upTo_eq_filter, agreeing.filter_tokens]

theorem after?_eq (agreeing : source.Agreeing) (target : Span) :
    source.tokens.after? target = (codeOf (source.stream.onFrom target)).head? := by
  rw [← TokenSeq.head?_onFrom, agreeing.inOrder.onFrom_eq_filter,
    agreeing.separated.inOrder.onFrom_eq_filter, agreeing.filter_tokens]

theorem hasCommentBetween_iff (agreeing : source.Agreeing) (left right : Span) :
    source.hasCommentBetween left right = true ↔
      ∃ comment ∈ source.comments, left.stop ≤ comment.span.start ∧
        comment.span.stop ≤ right.start := by
  unfold hasCommentBetween
  rw [List.any_eq_true]
  constructor
  · rintro ⟨comment, member, isComment⟩
    obtain ⟨inStream, bounds⟩ := agreeing.separated.inOrder.mem_between_iff.1 member
    exact ⟨comment, (agreeing.mem_comments_iff comment).2 ⟨inStream, isComment⟩, bounds⟩
  · rintro ⟨comment, member, bounds⟩
    obtain ⟨inStream, isComment⟩ := (agreeing.mem_comments_iff comment).1 member
    exact ⟨comment, agreeing.separated.inOrder.mem_between_iff.2 ⟨inStream, bounds⟩, isComment⟩

end Agreeing

/-- Every search of the code tokens is the search of the stream with the comments left out.  The
code token before a span is the last one up to the lexeme before the span, the one behind it is the
first from the lexeme behind the span on, and a comment stands between two spans when some comment
of the source does. -/
theorem searches_agree (made : make raw tree (some tokens) (some comments) = .ok source)
    (areCode : ∀ token ∈ tokens, token.isComment = false)
    (areComments : ∀ comment ∈ comments, comment.isComment = true)
    (ordered : tokens.Pairwise fun left right => left.span.start ≤ right.span.start)
    (apart : Span.AllApart ((tokens ++ comments).map Token.span)) (left target : Span) :
    source.tokens.enclosed target = codeOf (source.stream.enclosed target) ∧
    source.tokens.first? target = (codeOf (source.stream.enclosed target)).head? ∧
    source.tokens.last? target = (codeOf (source.stream.enclosed target)).getLast? ∧
    (source.tokens.before? target = (codeOf (source.stream.upTo target)).getLast? ∧
      (source.stream.upTo target).getLast? = source.stream.before? target) ∧
    (source.tokens.after? target = (codeOf (source.stream.onFrom target)).head? ∧
      (source.stream.onFrom target).head? = source.stream.after? target) ∧
    (source.tokens.between left target = codeOf (source.stream.between left target) ∧
      source.stream.between left target = source.stream.tokens.toList.filter fun lexeme =>
        left.stop ≤ lexeme.span.start ∧ lexeme.span.stop ≤ target.start) ∧
    (source.hasCommentBetween left target = true ↔
      ∃ comment ∈ source.comments, left.stop ≤ comment.span.start ∧
        comment.span.stop ≤ target.start) := by
  have agreeing := agreeing_of_make made areCode areComments ordered apart
  have enclosed := agreeing.enclosed_eq target
  refine ⟨enclosed, ?_, ?_, ⟨agreeing.before?_eq target, TokenSeq.getLast?_upTo target⟩,
    ⟨agreeing.after?_eq target, TokenSeq.head?_onFrom target⟩,
    ⟨agreeing.between_eq left target, ?_⟩, agreeing.hasCommentBetween_iff left target⟩
  · rw [TokenSeq.first?, enclosed]
  · rw [TokenSeq.last?, enclosed]
  · exact agreeing.separated.inOrder.between_eq_filter left target

/-- The code tokens of a script that assigns a number to a name. -/
def assignmentTokens : List Token :=
  [⟨.identifier, "x", .ofWidth 6 1, .zero⟩, ⟨.punctuator, "=", .ofWidth 8 1, .zero⟩,
    ⟨.numeric, "1", .ofWidth 18 1, .zero⟩, ⟨.punctuator, ";", .ofWidth 19 1, .zero⟩]

/-- The comments of that script, the last one reported before the one inside the assignment. -/
def assignmentComments : List Token :=
  [⟨.line, "run", .ofWidth 0 5, .zero⟩, ⟨.line, " b", .ofWidth 21 4, .zero⟩,
    ⟨.block, " a ", .ofWidth 10 7, .zero⟩]

theorem searches_agree_assignment :
    ∃ source, make "#!run\nx = /* a */ 1; // b".toList
        (Shape.toTree (.node .program (.ofWidth 6 14) .zero 0 []))
        (some assignmentTokens) (some assignmentComments) = .ok source ∧
      source.comments.map Token.kind = [.shebang, .line, .block] ∧
      (source.hasCommentBetween (.ofWidth 8 1) (.ofWidth 18 1) = true ∧
        ¬source.hasCommentBetween (.ofWidth 18 1) (.ofWidth 8 1) = true) ∧
      (codeOf (source.stream.upTo (.ofWidth 18 1))).getLast? = assignmentTokens[1]? ∧
      codeOf (source.stream.enclosed (.ofWidth 12 7)) = assignmentTokens[2]?.toList := by
  have areCode : ∀ token ∈ assignmentTokens, token.isComment = false := by decide
  have areComments : ∀ comment ∈ assignmentComments, comment.isComment = true := by decide
  have ordered : assignmentTokens.Pairwise fun left right =>
      left.span.start ≤ right.span.start := by decide
  have apart : Span.AllApart ((assignmentTokens ++ assignmentComments).map Token.span) :=
    ⟨by decide, by decide⟩
  have inOrder : (⟨assignmentTokens.toArray⟩ : TokenSeq).InOrder := by decide
  refine ⟨_, rfl, by decide, ⟨?_, ?_⟩, ?_, ?_⟩
  · obtain ⟨-, -, -, -, -, -, commented⟩ :=
      searches_agree rfl areCode areComments ordered apart (.ofWidth 8 1) (.ofWidth 18 1)
    rw [commented]
    decide
  · obtain ⟨-, -, -, -, -, -, commented⟩ :=
      searches_agree rfl areCode areComments ordered apart (.ofWidth 18 1) (.ofWidth 8 1)
    rw [commented]
    decide
  · obtain ⟨-, -, -, ⟨before, -⟩, -⟩ :=
      searches_agree rfl areCode areComments ordered apart (.ofWidth 18 1) (.ofWidth 18 1)
    rw [← before, ← TokenSeq.getLast?_upTo, inOrder.upTo_eq_filter]
    decide
  · obtain ⟨enclosed, -⟩ :=
      searches_agree rfl areCode areComments ordered apart (.ofWidth 18 1) (.ofWidth 12 7)
    rw [← enclosed, inOrder.enclosed_eq_filter]
    decide

end AnnotatedSource.Source
