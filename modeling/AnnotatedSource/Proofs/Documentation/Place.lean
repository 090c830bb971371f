import AnnotatedSource.Proofs.Comments.Sharing
import AnnotatedSource.Proofs.Documentation.Policy

/-!
Where documentation stands.  The node that stands for another is that node or one above it, and it
is never a bare program; so its leading comments stop before it starts, and the documentation of a
node stands before the node.  Behind the documentation nothing is left but comments of other kinds.
-/

set_option autoImplicit false
set_option relaxedAutoImplicit false

namespace AnnotatedSource

theorem LastDocumentation.not_documents_of_precedes {comments : List Token}
    {comment later : Token}
    (ordered : comments.Pairwise fun left right => left.span.Precedes right.span)
    (nonempty : comment.span.start < comment.span.stop)
    (last : LastDocumentation comments comment) (member : later ∈ comments)
    (behind : comment.span.Precedes later.span) : ¬later.Documents := by
  obtain ⟨-, before, after, rfl, none⟩ := last
  obtain ⟨-, -, across⟩ := List.pairwise_append.1 ordered
  have width := later.span.start_le_stop
  rcases List.mem_append.1 member with inBefore | rest
  · have front := across later inBefore comment List.mem_cons_self
    omega
  · rcases List.mem_cons.1 rest with rfl | inAfter
    · omega
    · exact none later inAfter

namespace Tree

variable {tree : Tree} {leading : tree.Id → List Token} {id target : tree.Id}

theorem StandsFor.mem_lineage (standsFor : tree.StandsFor leading id target) :
    target ∈ tree.lineage id := by
  cases standsFor with
  | wrapper _ found _ => exact List.mem_cons_of_mem _ (mem_ancestors_of_parent? found)
  | declaration => exact List.mem_cons_self
  | classExpression _ found above =>
    exact mem_lineage_of_parent? found (mem_lineage_of_parent? above List.mem_cons_self)
  | argument => exact List.mem_cons_self
  | enclosing _ _ _ above _ _ => exact List.mem_cons_of_mem _ above

theorem StandsFor.kind_ne_program (standsFor : tree.StandsFor leading id target) :
    (tree.node id).kind ≠ .program := by
  intro isProgram
  cases standsFor with
  | wrapper kind | declaration kind | classExpression kind | argument kind | enclosing kind =>
    rw [isProgram] at kind
    exact absurd kind (by decide)

theorem StandsFor.not_isBareProgram (built : tree.Built)
    (standsFor : tree.StandsFor leading id target) : ¬tree.IsBareProgram target := by
  rintro ⟨isProgram, childless⟩
  rcases mem_lineage_iff.1 standsFor.mem_lineage with rfl | above
  · exact standsFor.kind_ne_program isProgram
  · exact children_ne_nil_of_mem_ancestors built above childless

end Tree

namespace Source

variable {source : Source}

theorem mem_leading_of_between (separated : source.stream.Separated) {id : source.tree.Id}
    (bare : ¬source.tree.IsBareProgram id) {comment later : Token}
    (leads : comment ∈ (source.commentsOf id).leading)
    (member : later ∈ source.stream.tokens.toList) (behind : comment.span.Precedes later.span)
    (before : later.span.Precedes (source.tree.node id).span) :
    later ∈ (source.commentsOf id).leading := by
  obtain ⟨members, -, -, within, clear⟩ := leads_of_mem_leading separated bare leads
  have isComment : later.isComment = true := by
    by_contra isCode
    exact clear later member (by simpa using isCode) ⟨behind, before⟩
  have width := comment.span.start_le_stop
  rw [commentsOf_of_members separated bare members]
  refine List.mem_filter.2 ⟨member, decide_eq_true ⟨isComment, before, ?_, ?_⟩⟩
  · intro parent isParent
    have bound := within parent isParent
    omega
  · rintro token inStream isCode ⟨afterLater, beforeNode⟩
    exact clear token inStream isCode ⟨behind.trans afterLater, beforeNode⟩

theorem pairwise_leading (separated : source.stream.Separated) {id : source.tree.Id}
    (bare : ¬source.tree.IsBareProgram id) :
    (source.commentsOf id).leading.Pairwise fun left right => left.span.Precedes right.span := by
  by_cases nothing : source.tree.HoldsNothing id
  · rw [commentsOf_of_holdsNothing separated.inOrder bare nothing]
    exact List.Pairwise.nil
  · rw [commentsOf_of_members separated bare nothing]
    exact separated.inOrder.pairwise_precedes.filter _

/-- The documentation of a node is a documentation comment of the stream, it stands before the node,
and between it and the node or one above stand only comments that are no documentation. -/
theorem documentationOf_precedes (source : Source) (separated : source.stream.Separated)
    (built : source.tree.Built) (nested : source.tree.Nested) {id : source.tree.Id}
    {comment : Token} (found : source.documentationOf id = some comment) :
    comment ∈ source.stream.tokens.toList ∧
      comment.Documents ∧
      comment.span.Precedes (source.tree.node id).span ∧
      ∃ above ∈ source.tree.lineage id,
        comment.span.Precedes (source.tree.node above).span ∧
        ∀ lexeme ∈ source.stream.tokens.toList,
          comment.span.Precedes lexeme.span →
          lexeme.span.Precedes (source.tree.node above).span →
          lexeme.isComment = true ∧ ¬lexeme.Documents := by
  obtain ⟨target, standsFor, last, -⟩ := Tree.exists_standsFor_of_documentation_eq_some found
  have bare := standsFor.not_isBareProgram built
  have inLineage := standsFor.mem_lineage
  have leads : comment ∈ (source.commentsOf target).leading := by
    obtain ⟨-, before, after, split, -⟩ := last
    simp [split]
  have inStream := mem_tokens_of_claims separated (.inl leads)
  obtain ⟨-, -, precedes, -, -⟩ := leads_of_mem_leading separated bare leads
  have around := Tree.encloses_of_mem_lineage built nested inLineage
  refine ⟨inStream, last.1, by omega, target, inLineage, precedes, ?_⟩
  intro lexeme member behind before
  have alsoLeads := mem_leading_of_between separated bare leads member behind before
  refine ⟨(leads_of_mem_leading separated bare alsoLeads).2.1, ?_⟩
  exact last.not_documents_of_precedes (pairwise_leading separated bare)
    (separated.nonempty comment inStream) alsoLeads behind

def documentedShape : Shape :=
  sampleNode .program (.ofWidth 0 35)
    [sampleNode .variableDeclaration (.ofWidth 17 18)
      [sampleNode .variableDeclarator (.ofWidth 23 11)
        [sampleNode .identifier (.ofWidth 23 1) [],
          sampleNode .arrowFunctionExpression (.ofWidth 27 7)
            [sampleNode .literal (.ofWidth 33 1) []]]]]

def documentedStream : Array Token :=
  #[sampleToken .block "* f " (.ofWidth 0 8), sampleToken .block " g " (.ofWidth 9 7),
    sampleToken .keyword "const" (.ofWidth 17 5), sampleToken .identifier "f" (.ofWidth 23 1),
    sampleToken .punctuator "=" (.ofWidth 25 1), sampleToken .punctuator "(" (.ofWidth 27 1),
    sampleToken .punctuator ")" (.ofWidth 28 1), sampleToken .punctuator "=>" (.ofWidth 30 2),
    sampleToken .numeric "0" (.ofWidth 33 1), sampleToken .punctuator ";" (.ofWidth 34 1)]

/-- An arrow function whose documentation stands above the declaration around it, with another
comment behind it. -/
def documented : Source where
  text := "/** f */ /* g */ const f = () => 0;".toList
  marked := false
  tree := documentedShape.toTree
  tokens := ⟨documentedStream.filter fun token => !token.isComment⟩
  comments := (documentedStream.filter Token.isComment).toList
  stream := ⟨documentedStream⟩

theorem documentationOf_precedes_arrow :
    documented.documentationOf ⟨4, by decide⟩ =
        some (sampleToken .block "* f " (Span.ofWidth 0 8)) ∧
      ∃ above ∈ documented.tree.lineage ⟨4, by decide⟩,
        (Span.ofWidth 0 8).Precedes (documented.tree.node above).span ∧
        ∀ lexeme ∈ documented.stream.tokens.toList,
          (Span.ofWidth 0 8).Precedes lexeme.span →
          lexeme.span.Precedes (documented.tree.node above).span →
          lexeme.isComment = true ∧ ¬lexeme.Documents := by
  have found : documented.documentationOf ⟨4, by decide⟩ =
      some (sampleToken .block "* f " (Span.ofWidth 0 8)) := by decide +kernel
  have built : documented.tree.Built := Shape.built_toTree documentedShape
  obtain ⟨-, -, -, placed⟩ :=
    documentationOf_precedes documented (by decide) built (by decide) found
  exact ⟨found, placed⟩

end Source

end AnnotatedSource
