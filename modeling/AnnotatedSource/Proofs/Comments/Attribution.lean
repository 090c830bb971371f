import AnnotatedSource.Source
import AnnotatedSource.Tree.Shape
import AnnotatedSource.Proofs.Comments.Places
import AnnotatedSource.Proofs.Kind.Set

/-!
Which comments belong to a node, said without a search.  Comments lead or trail a node when no code
token stands between the two and the node's parent does not end first; an empty container and a bare
program receive what lies in them.  In a separated stream the search ends and finds exactly these
comments, in the order of the text.
-/

set_option autoImplicit false
set_option relaxedAutoImplicit false

namespace AnnotatedSource

/-- An attachment to a stream lists comments of the stream on both sides. -/
structure Attachment.Within (attachment : Attachment) (stream : TokenSeq) : Prop where
  leading : stream.ListsComments attachment.leading
  trailing : stream.ListsComments attachment.trailing

namespace Tree

variable (tree : Tree) (stream : TokenSeq) (id : tree.Id)

def IsBareProgram : Prop := (tree.node id).kind = .program ∧ tree.children id = []

def IsCaselessSwitch : Prop :=
  (tree.node id).kind = .switchStatement ∧
    ∀ child ∈ tree.children id, (tree.node child).kind ≠ .switchCase

/-- A container without members: a switch without cases, or a block, a class body, an object or an
array with neither children nor holes. -/
def HoldsNothing : Prop :=
  tree.IsCaselessSwitch id ∨
  ((tree.node id).kind ∈ [.blockStatement, .classBody, .objectExpression, .arrayExpression] ∧
    tree.children id = [] ∧ (tree.node id).holes = 0)

/-- A comment leads a node that it precedes when it starts within the node's parent and no code
token stands between the two. -/
def Leads (comment : Token) : Prop :=
  comment.isComment = true ∧ comment.span.Precedes (tree.node id).span ∧
    (∀ parent ∈ tree.parent? id, (tree.node parent).span.start ≤ comment.span.start) ∧
    stream.ClearBetween comment.span (tree.node id).span

/-- A comment trails a node that precedes it when it stops within the node's parent and no code
token stands between the two. -/
def Trails (comment : Token) : Prop :=
  comment.isComment = true ∧ (tree.node id).span.Precedes comment.span ∧
    (∀ parent ∈ tree.parent? id, comment.span.stop ≤ (tree.node parent).span.stop) ∧
    stream.ClearBetween (tree.node id).span comment.span

/-- A comment lies in a node when the node's span encloses it. -/
def LiesIn (comment : Token) : Prop :=
  comment.isComment = true ∧ (tree.node id).span.Encloses comment.span

instance : Decidable (tree.IsBareProgram id) := inferInstanceAs (Decidable (_ ∧ _))
instance : Decidable (tree.IsCaselessSwitch id) := inferInstanceAs (Decidable (_ ∧ _))
instance : Decidable (tree.HoldsNothing id) := inferInstanceAs (Decidable (_ ∨ _))
instance : DecidablePred (tree.Leads stream id) := fun _ => inferInstanceAs (Decidable (_ ∧ _))
instance : DecidablePred (tree.Trails stream id) := fun _ => inferInstanceAs (Decidable (_ ∧ _))
instance : DecidablePred (tree.LiesIn id) := fun _ => inferInstanceAs (Decidable (_ ∧ _))

variable {tree stream id}

private theorem isContainer_iff (kind : NodeKind) (notSwitch : kind ≠ .switchStatement) :
    kind.isContainer = true ↔
      kind ∈ [.blockStatement, .classBody, .objectExpression, .arrayExpression] := by
  simp [NodeKind.isContainer, NodeKind.containers, KindSet.contains_ofList, notSwitch]

theorem isEmptyContainer_iff : tree.isEmptyContainer id = true ↔ tree.HoldsNothing id := by
  unfold isEmptyContainer HoldsNothing IsCaselessSwitch
  by_cases isSwitch : (tree.node id).kind = .switchStatement
  · simp [isSwitch]
  · have container := isContainer_iff _ isSwitch
    simp only [isSwitch, if_false, false_and, false_or, Bool.and_eq_true, container,
      List.isEmpty_iff, beq_iff_eq, and_assoc]

theorem isEmptyContainer_eq_false_iff :
    tree.isEmptyContainer id = false ↔ ¬tree.HoldsNothing id := by
  rw [← isEmptyContainer_iff, Bool.not_eq_true]

/-- The span of the parent, beyond which no run goes. -/
def outerSpan (tree : Tree) (id : tree.Id) : Option Span :=
  (tree.parent? id).map fun parent => (tree.node parent).span

theorem attachment_of_bareProgram (bare : tree.IsBareProgram id) :
    tree.attachment stream id = ⟨stream.commentsIn 0 stream.size, []⟩ := by
  simp [attachment, bare.1, bare.2]

theorem attachment_of_holdsNothing (bare : ¬tree.IsBareProgram id)
    (nothing : tree.HoldsNothing id) :
    tree.attachment stream id =
      ⟨[], stream.commentsIn (stream.enclosedBounds (tree.node id).span).1
        (stream.enclosedBounds (tree.node id).span).2⟩ := by
  have empty := isEmptyContainer_iff.2 nothing
  have notBare : ¬(((tree.node id).kind = .program && (tree.children id).isEmpty) = true) := by
    simpa [IsBareProgram] using bare
  simp only [attachment, notBare, empty, if_true]
  rfl

theorem attachment_of_members (bare : ¬tree.IsBareProgram id)
    (members : ¬tree.HoldsNothing id) :
    tree.attachment stream id =
      ⟨(stream.placesBefore (tree.outerSpan id) (tree.node id).span).reverse,
        stream.placesAfter (tree.outerSpan id) (tree.node id).span⟩ := by
  have notEmpty : ¬tree.isEmptyContainer id = true := mt isEmptyContainer_iff.1 members
  have notBare : ¬(((tree.node id).kind = .program && (tree.children id).isEmpty) = true) := by
    simpa [IsBareProgram] using bare
  simp only [attachment, notBare, notEmpty]
  rfl

private theorem forall_mem_outerSpan {property : Span → Prop} :
    (∀ span ∈ tree.outerSpan id, property span) ↔
      ∀ parent ∈ tree.parent? id, property (tree.node parent).span := by
  simp [outerSpan]

theorem marks_leads (separated : stream.Separated) :
    stream.Marks (tree.Leads stream id)
      (stream.placesBefore (tree.outerSpan id) (tree.node id).span).reverse := by
  refine (separated.marks_placesBefore (tree.outerSpan id) (tree.node id).span).congr ?_
  intro comment
  rw [forall_mem_outerSpan]
  rfl

theorem marks_trails (separated : stream.Separated) :
    stream.Marks (tree.Trails stream id)
      (stream.placesAfter (tree.outerSpan id) (tree.node id).span) := by
  refine (separated.marks_placesAfter (tree.outerSpan id) (tree.node id).span).congr ?_
  intro comment
  rw [forall_mem_outerSpan]
  rfl

theorem within_attachment (separated : stream.Separated) (id : tree.Id) :
    (tree.attachment stream id).Within stream := by
  by_cases bare : tree.IsBareProgram id
  · rw [attachment_of_bareProgram bare]
    exact ⟨TokenSeq.marks_comments.listsComments fun _ comment => comment,
      stream.listsComments_nil⟩
  by_cases nothing : tree.HoldsNothing id
  · rw [attachment_of_holdsNothing bare nothing]
    exact ⟨stream.listsComments_nil,
      (separated.inOrder.marks_enclosed _).listsComments fun _ inside => inside.1⟩
  · rw [attachment_of_members bare nothing]
    exact ⟨(marks_leads separated).listsComments fun _ leads => leads.1,
      (marks_trails separated).listsComments fun _ trails => trails.1⟩

end Tree

namespace Source

variable {source : Source} {id : source.tree.Id}

theorem commentsOf_of_bareProgram (bare : source.tree.IsBareProgram id) :
    source.commentsOf id = ⟨source.stream.tokens.toList.filter (·.isComment = true), []⟩ := by
  rw [commentsOf, attachment, Tree.attachment_of_bareProgram bare, Attachment.comments,
    TokenSeq.marks_comments.select_eq]
  rfl

theorem commentsOf_of_holdsNothing (inOrder : source.stream.InOrder)
    (bare : ¬source.tree.IsBareProgram id) (nothing : source.tree.HoldsNothing id) :
    source.commentsOf id =
      ⟨[], source.stream.tokens.toList.filter (source.tree.LiesIn id ·)⟩ := by
  have inside := (inOrder.marks_enclosed (source.tree.node id).span).select_eq
  rw [commentsOf, attachment, Tree.attachment_of_holdsNothing bare nothing, Attachment.comments,
    inside]
  rfl

theorem commentsOf_of_members (separated : source.stream.Separated)
    (bare : ¬source.tree.IsBareProgram id) (members : ¬source.tree.HoldsNothing id) :
    source.commentsOf id =
      ⟨source.stream.tokens.toList.filter (source.tree.Leads source.stream id ·),
        source.stream.tokens.toList.filter (source.tree.Trails source.stream id ·)⟩ := by
  rw [commentsOf, attachment, Tree.attachment_of_members bare members, Attachment.comments,
    (Tree.marks_leads separated).select_eq, (Tree.marks_trails separated).select_eq]

/-- The comments of a node, of any tree and any separated stream.  A bare program is led by every
comment.  What lies in a container without members trails it.  Around any other node two runs come
to an end at its leading and trailing comments. -/
theorem commentsOf_eq_declared (source : Source) (separated : source.stream.Separated)
    (id : source.tree.Id) :
    (source.tree.IsBareProgram id →
      source.commentsOf id = ⟨source.stream.tokens.toList.filter (·.isComment = true), []⟩) ∧
    (¬source.tree.IsBareProgram id → source.tree.HoldsNothing id →
      source.commentsOf id =
        ⟨[], source.stream.tokens.toList.filter (source.tree.LiesIn id ·)⟩) ∧
    (¬source.tree.IsBareProgram id → ¬source.tree.HoldsNothing id →
      (∃ before after,
        source.stream.RunsBefore (source.tree.outerSpan id) (source.tree.node id).span before ∧
        source.stream.RunsAfter (source.tree.outerSpan id) (source.tree.node id).span after ∧
        source.attachment id = ⟨before.reverse, after⟩) ∧
      source.commentsOf id =
        ⟨source.stream.tokens.toList.filter (source.tree.Leads source.stream id ·),
          source.stream.tokens.toList.filter (source.tree.Trails source.stream id ·)⟩) := by
  refine ⟨commentsOf_of_bareProgram, commentsOf_of_holdsNothing separated.inOrder, ?_⟩
  intro bare members
  refine ⟨?_, commentsOf_of_members separated bare members⟩
  exact ⟨_, _, separated.runsBefore _ _, separated.runsAfter _ _,
    Tree.attachment_of_members bare members⟩

def sampleSpan (start stop : Nat) (order : start ≤ stop := by decide)
    (bound : stop < offsetBound := by decide) : Span :=
  ⟨start, stop, order, bound⟩

def sampleNode (kind : NodeKind) (span : Span) (children : List Shape) : Shape :=
  .node kind span .zero 0 children

def sampleToken (kind : TokenKind) (value : String) (span : Span) : Token :=
  ⟨kind, value, span, .zero⟩

def sampleShape : Shape :=
  sampleNode .program (sampleSpan 0 40)
    [sampleNode .expressionStatement (sampleSpan 8 21)
      [sampleNode .callExpression (sampleSpan 8 20)
        [sampleNode .identifier (sampleSpan 8 9) [],
          sampleNode .identifier (sampleSpan 18 19) []]],
     sampleNode .expressionStatement (sampleSpan 27 40)
      [sampleNode .callExpression (sampleSpan 27 39)
        [sampleNode .identifier (sampleSpan 27 28) [],
          sampleNode .arrayExpression (sampleSpan 29 38) []]]]

def sampleStream : Array Token :=
  #[sampleToken .block " a " (sampleSpan 0 7), sampleToken .identifier "f" (sampleSpan 8 9),
    sampleToken .punctuator "(" (sampleSpan 9 10), sampleToken .block " b " (sampleSpan 10 17),
    sampleToken .identifier "x" (sampleSpan 18 19), sampleToken .punctuator ")" (sampleSpan 19 20),
    sampleToken .punctuator ";" (sampleSpan 20 21), sampleToken .line " c" (sampleSpan 22 26),
    sampleToken .identifier "g" (sampleSpan 27 28), sampleToken .punctuator "(" (sampleSpan 28 29),
    sampleToken .punctuator "[" (sampleSpan 29 30), sampleToken .block " d " (sampleSpan 30 37),
    sampleToken .punctuator "]" (sampleSpan 37 38), sampleToken .punctuator ")" (sampleSpan 38 39),
    sampleToken .punctuator ";" (sampleSpan 39 40)]

/-- Two statements with comments before, inside and after them. -/
def sample : Source where
  text := "/* a */ f(/* b */ x); // c\ng([/* d */]);".toList
  marked := false
  tree := sampleShape.toTree
  tokens := ⟨sampleStream.filter fun token => !token.isComment⟩
  comments := (sampleStream.filter Token.isComment).toList
  stream := ⟨sampleStream⟩

theorem commentsOf_eq_declared_sample :
    sample.stream.Separated ∧
      sample.commentsOf ⟨1, by decide⟩ =
        ⟨[sampleToken .block " a " (sampleSpan 0 7)],
          [sampleToken .line " c" (sampleSpan 22 26)]⟩ ∧
      sample.commentsOf ⟨8, by decide⟩ =
        ⟨[], [sampleToken .block " d " (sampleSpan 30 37)]⟩ := by
  have separated : sample.stream.Separated := by decide
  refine ⟨separated, ?_, ?_⟩
  · have declared := commentsOf_eq_declared sample separated ⟨1, by decide⟩
    rw [(declared.2.2 (by decide) (by decide)).2]
    decide
  · have declared := commentsOf_eq_declared sample separated ⟨8, by decide⟩
    rw [declared.2.1 (by decide) (by decide)]
    decide

end Source

end AnnotatedSource
