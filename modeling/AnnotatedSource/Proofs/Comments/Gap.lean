import AnnotatedSource.Proofs.Comments.Attribution
import AnnotatedSource.Proofs.TokenSeq.Contents
import AnnotatedSource.Proofs.Tree.Built
import Mathlib.Data.List.DropRight

/-!
The gap between two children of one node.  Where the first child ends in a code token and the second
starts with one, the comments of the gap are shared out from its two ends: up to its first code
token they trail the first child, and behind its last code token they lead the second.  A gap
without code goes to both.
-/

set_option autoImplicit false
set_option relaxedAutoImplicit false

namespace AnnotatedSource

def Token.StartsBefore (left right : Token) : Prop := left.span.start < right.span.start

instance : Std.Asymm Token.StartsBefore := ⟨fun _ _ => Nat.lt_asymm⟩
instance : Std.Irrefl Token.StartsBefore := ⟨fun _ => Nat.lt_irrefl _⟩

namespace TokenSeq

/-- The last token in a span is a code token that stops with the span. -/
def EndsInCode (stream : TokenSeq) (target : Span) : Prop :=
  ∃ token, stream.last? target = some token ∧ token.isComment = false ∧
    token.span.stop = target.stop

/-- The first token in a span is a code token that starts with the span. -/
def StartsInCode (stream : TokenSeq) (target : Span) : Prop :=
  ∃ token, stream.first? target = some token ∧ token.isComment = false ∧
    token.span.start = target.start

variable {stream : TokenSeq}

theorem Separated.pairwise_startsBefore (separated : stream.Separated) :
    stream.tokens.toList.Pairwise Token.StartsBefore := by
  refine separated.inOrder.pairwise_precedes.imp_of_mem ?_
  intro left right hleft _ precedes
  exact Nat.lt_of_lt_of_le (separated.nonempty left hleft) precedes

theorem Separated.pairwise_between (separated : stream.Separated) (left right : Span) :
    (stream.between left right).Pairwise Token.StartsBefore := by
  rw [separated.inOrder.between_eq_filter]
  exact separated.pairwise_startsBefore.filter _

theorem Separated.mem_takeWhile_between_iff (separated : stream.Separated) {left right : Span}
    {comment : Token} :
    comment ∈ (stream.between left right).takeWhile Token.isComment ↔
      comment ∈ stream.between left right ∧ comment.isComment = true ∧
        stream.ClearBetween left comment.span := by
  rw [mem_takeWhile_iff (separated.pairwise_between left right)]
  refine and_congr_right fun member => and_congr_right fun _ => ?_
  obtain ⟨listed, -, before⟩ := separated.inOrder.mem_between_iff.1 member
  have width := comment.span.start_le_stop
  constructor
  · intro comments token hmem isCode ⟨after, front⟩
    have nonempty := separated.nonempty token hmem
    have inGap : token ∈ stream.between left right :=
      separated.inOrder.mem_between_iff.2 ⟨hmem, after, by omega⟩
    have earlier : token.StartsBefore comment := Nat.lt_of_lt_of_le nonempty front
    rw [comments token inGap earlier] at isCode
    contradiction
  · intro clear other hother earlier
    obtain ⟨hmem, after, -⟩ := separated.inOrder.mem_between_iff.1 hother
    unfold Token.StartsBefore at earlier
    rcases separated.inOrder.precedes_or_eq_or_precedes hmem listed with front | rfl | behind
    · by_contra isCode
      exact clear other hmem (by simpa using isCode) ⟨after, front⟩
    · omega
    · omega

theorem Separated.mem_rtakeWhile_between_iff (separated : stream.Separated) {left right : Span}
    {comment : Token} :
    comment ∈ (stream.between left right).rtakeWhile Token.isComment ↔
      comment ∈ stream.between left right ∧ comment.isComment = true ∧
        stream.ClearBetween comment.span right := by
  have backwards : (stream.between left right).reverse.Pairwise (flip Token.StartsBefore) :=
    List.pairwise_reverse.2 (separated.pairwise_between left right)
  have asymmetric : Std.Asymm (flip Token.StartsBefore) := ⟨fun _ _ => Nat.lt_asymm⟩
  rw [List.rtakeWhile, List.mem_reverse, mem_takeWhile_iff backwards, List.mem_reverse]
  refine and_congr_right fun member => and_congr_right fun _ => ?_
  obtain ⟨listed, after, -⟩ := separated.inOrder.mem_between_iff.1 member
  have width := comment.span.start_le_stop
  have nonempty := separated.nonempty comment listed
  constructor
  · intro comments token hmem isCode ⟨behind, before⟩
    have inGap : token ∈ stream.between left right :=
      separated.inOrder.mem_between_iff.2 ⟨hmem, by omega, before⟩
    have later : comment.StartsBefore token := Nat.lt_of_lt_of_le nonempty behind
    rw [comments token (List.mem_reverse.2 inGap) later] at isCode
    contradiction
  · intro clear other hother later
    obtain ⟨hmem, -, before⟩ := separated.inOrder.mem_between_iff.1 (List.mem_reverse.1 hother)
    have otherWidth := other.span.start_le_stop
    change comment.span.start < other.span.start at later
    rcases separated.inOrder.precedes_or_eq_or_precedes hmem listed with front | rfl | behind
    · omega
    · omega
    · by_contra isCode
      exact clear other hmem (by simpa using isCode) ⟨behind, before⟩

theorem Separated.disjoint_ends_between (separated : stream.Separated) {left right : Span}
    {token : Token} (member : token ∈ stream.between left right)
    (isCode : token.isComment = false) :
    ((stream.between left right).takeWhile Token.isComment).Disjoint
      ((stream.between left right).rtakeWhile Token.isComment) := by
  intro comment atFront atBack
  obtain ⟨inGap, isComment, clearFront⟩ := separated.mem_takeWhile_between_iff.1 atFront
  obtain ⟨-, -, clearBack⟩ := separated.mem_rtakeWhile_between_iff.1 atBack
  obtain ⟨listed, after, before⟩ := separated.inOrder.mem_between_iff.1 member
  have known := (separated.inOrder.mem_between_iff.1 inGap).1
  rcases separated.inOrder.precedes_or_eq_or_precedes listed known with front | rfl | behind
  · exact clearFront token listed isCode ⟨after, front⟩
  · rw [isCode] at isComment
    contradiction
  · exact clearBack token listed isCode ⟨behind, before⟩

theorem StartsInCode.exists_mem (inOrder : stream.InOrder) {target : Span}
    (h : stream.StartsInCode target) :
    ∃ token ∈ stream.tokens.toList, token.isComment = false ∧
      token.span.start = target.start := by
  obtain ⟨token, found, isCode, start⟩ := h
  have inside : token ∈ stream.enclosed target := List.mem_of_mem_head? found
  exact ⟨token, (inOrder.mem_enclosed_iff.1 inside).1, isCode, start⟩

theorem EndsInCode.exists_mem (inOrder : stream.InOrder) {target : Span}
    (h : stream.EndsInCode target) :
    ∃ token ∈ stream.tokens.toList, token.isComment = false ∧ token.span.stop = target.stop := by
  obtain ⟨token, found, isCode, stop⟩ := h
  have inside : token ∈ stream.enclosed target := List.mem_of_getLast? found
  exact ⟨token, (inOrder.mem_enclosed_iff.1 inside).1, isCode, stop⟩

end TokenSeq

namespace Source

/-- The tokens and comments between two nodes. -/
def gap (source : Source) (left right : source.tree.Id) : List Token :=
  source.stream.between (source.tree.node left).span (source.tree.node right).span

variable {source : Source} {parent left right : source.tree.Id}

/-- What trails the first of two children is the front of the gap.  The code token at the start of
the second child keeps the run in the gap, and the parent's end does not cut it short. -/
theorem trailing_eq_takeWhile (separated : source.stream.Separated)
    (found : source.tree.parent? left = some parent)
    (bare : ¬source.tree.IsBareProgram left) (members : ¬source.tree.HoldsNothing left)
    (order : (source.tree.node left).span.Precedes (source.tree.node right).span)
    (inside : (source.tree.node parent).span.Encloses (source.tree.node right).span)
    (opened : source.stream.StartsInCode (source.tree.node right).span) :
    (source.commentsOf left).trailing = (source.gap left right).takeWhile Token.isComment := by
  obtain ⟨opener, hopener, isCode, start⟩ := opened.exists_mem separated.inOrder
  have openerNonempty := separated.nonempty opener hopener
  have rightWidth := (source.tree.node right).span.start_le_stop
  rw [commentsOf_of_members separated bare members]
  refine (separated.pairwise_startsBefore.filter _).eq_of_mem_iff
    ((separated.pairwise_between _ _).sublist (List.takeWhile_sublist _)) fun comment => ?_
  rw [List.mem_filter, decide_eq_true_iff, gap, separated.mem_takeWhile_between_iff,
    separated.inOrder.mem_between_iff]
  constructor
  · rintro ⟨listed, isComment, after, -, clear⟩
    rcases separated.inOrder.precedes_or_eq_or_precedes listed hopener with
      before | rfl | behind
    · exact ⟨⟨listed, after, by omega⟩, isComment, clear⟩
    · rw [isCode] at isComment
      contradiction
    · exact absurd ⟨by omega, behind⟩ (clear opener hopener isCode)
  · rintro ⟨⟨listed, after, before⟩, isComment, clear⟩
    refine ⟨listed, isComment, after, ?_, clear⟩
    intro above isAbove
    obtain rfl := Option.some.inj (found.symm.trans isAbove)
    omega

theorem leading_eq_rtakeWhile (separated : source.stream.Separated)
    (found : source.tree.parent? right = some parent)
    (bare : ¬source.tree.IsBareProgram right) (members : ¬source.tree.HoldsNothing right)
    (order : (source.tree.node left).span.Precedes (source.tree.node right).span)
    (inside : (source.tree.node parent).span.Encloses (source.tree.node left).span)
    (closed : source.stream.EndsInCode (source.tree.node left).span) :
    (source.commentsOf right).leading = (source.gap left right).rtakeWhile Token.isComment := by
  obtain ⟨closer, hcloser, isCode, stop⟩ := closed.exists_mem separated.inOrder
  have closerNonempty := separated.nonempty closer hcloser
  have leftWidth := (source.tree.node left).span.start_le_stop
  rw [commentsOf_of_members separated bare members]
  refine (separated.pairwise_startsBefore.filter _).eq_of_mem_iff
    ((separated.pairwise_between _ _).sublist (List.rtakeWhile_suffix _ _).sublist)
    fun comment => ?_
  rw [List.mem_filter, decide_eq_true_iff, gap, separated.mem_rtakeWhile_between_iff,
    separated.inOrder.mem_between_iff]
  constructor
  · rintro ⟨listed, isComment, before, -, clear⟩
    rcases separated.inOrder.precedes_or_eq_or_precedes hcloser listed with
      after | rfl | front
    · exact ⟨⟨listed, by omega, before⟩, isComment, clear⟩
    · rw [isCode] at isComment
      contradiction
    · exact absurd ⟨front, by omega⟩ (clear closer hcloser isCode)
  · rintro ⟨⟨listed, after, before⟩, isComment, clear⟩
    refine ⟨listed, isComment, before, ?_, clear⟩
    intro above isAbove
    obtain rfl := Option.some.inj (found.symm.trans isAbove)
    omega

/-- Two children of one node share out the gap between them.  The first child has the longest run
of comments at the front of the gap, the second the longest run at its back.  So both have the whole
of a gap without code, and they have nothing in common where there is code in the gap. -/
theorem commentsOf_gap (source : Source) (separated : source.stream.Separated)
    (built : source.tree.Built) {parent left right : source.tree.Id}
    (leftChild : left ∈ source.tree.children parent)
    (rightChild : right ∈ source.tree.children parent)
    (leftInside : (source.tree.node parent).span.Encloses (source.tree.node left).span)
    (rightInside : (source.tree.node parent).span.Encloses (source.tree.node right).span)
    (order : (source.tree.node left).span.Precedes (source.tree.node right).span)
    (leftBare : ¬source.tree.IsBareProgram left) (rightBare : ¬source.tree.IsBareProgram right)
    (leftMembers : source.tree.isEmptyContainer left = false)
    (rightMembers : source.tree.isEmptyContainer right = false)
    (closed : source.stream.EndsInCode (source.tree.node left).span)
    (opened : source.stream.StartsInCode (source.tree.node right).span) :
    source.gap left right = source.stream.tokens.toList.filter (fun item =>
      (source.tree.node left).span.Precedes item.span ∧
        item.span.Precedes (source.tree.node right).span) ∧
    (source.commentsOf left).trailing = (source.gap left right).takeWhile Token.isComment ∧
    (source.commentsOf right).leading = (source.gap left right).rtakeWhile Token.isComment ∧
    ((∀ item ∈ source.gap left right, item.isComment = true) →
      (source.commentsOf left).trailing = source.gap left right ∧
        (source.commentsOf right).leading = source.gap left right) ∧
    ((∃ item ∈ source.gap left right, item.isComment = false) →
      (source.commentsOf left).trailing.Disjoint (source.commentsOf right).leading) := by
  have trailing := trailing_eq_takeWhile separated (built.mem_children_iff.1 leftChild) leftBare
    (Tree.isEmptyContainer_eq_false_iff.1 leftMembers) order rightInside opened
  have leading := leading_eq_rtakeWhile separated (built.mem_children_iff.1 rightChild) rightBare
    (Tree.isEmptyContainer_eq_false_iff.1 rightMembers) order leftInside closed
  refine ⟨separated.inOrder.between_eq_filter _ _, trailing, leading, ?_, ?_⟩
  · intro comments
    rw [trailing, leading]
    exact ⟨List.takeWhile_eq_self_iff.2 comments, List.rtakeWhile_eq_self_iff.2 comments⟩
  · rintro ⟨item, member, isCode⟩
    rw [trailing, leading]
    exact separated.disjoint_ends_between member isCode

theorem commentsOf_gap_sample :
    sample.stream.EndsInCode (sample.tree.node ⟨3, by decide⟩).span ∧
      sample.stream.StartsInCode (sample.tree.node ⟨4, by decide⟩).span ∧
      sample.gap ⟨3, by decide⟩ ⟨4, by decide⟩ =
        [sampleToken .punctuator "(" (sampleSpan 9 10),
          sampleToken .block " b " (sampleSpan 10 17)] ∧
      (sample.commentsOf ⟨3, by decide⟩).trailing = [] ∧
      (sample.commentsOf ⟨4, by decide⟩).leading =
        [sampleToken .block " b " (sampleSpan 10 17)] := by
  have separated : sample.stream.Separated := by decide
  have closed : sample.stream.EndsInCode (sample.tree.node ⟨3, by decide⟩).span := by
    refine ⟨sampleToken .identifier "f" (sampleSpan 8 9), ?_, by decide, by decide⟩
    rw [TokenSeq.last?, separated.inOrder.enclosed_eq_filter]
    decide
  have opened : sample.stream.StartsInCode (sample.tree.node ⟨4, by decide⟩).span := by
    refine ⟨sampleToken .identifier "x" (sampleSpan 18 19), ?_, by decide, by decide⟩
    rw [TokenSeq.first?, separated.inOrder.enclosed_eq_filter]
    decide
  have leftChild : (⟨3, by decide⟩ : sample.tree.Id) ∈ sample.tree.children ⟨2, by decide⟩ := by
    decide
  have rightChild : (⟨4, by decide⟩ : sample.tree.Id) ∈ sample.tree.children ⟨2, by decide⟩ := by
    decide
  obtain ⟨gap, trailing, leading, -, -⟩ :=
    commentsOf_gap sample separated (Shape.built_toTree sampleShape) leftChild rightChild
      (by decide) (by decide) (by decide) (by decide) (by decide) (by decide) (by decide) closed
      opened
  refine ⟨closed, opened, gap.trans (by decide), ?_, ?_⟩
  · rw [trailing, gap]
    decide
  · rw [leading, gap]
    decide

end Source

end AnnotatedSource
