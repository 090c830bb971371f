import AnnotatedSource.Proofs.Documentation.Place

/-!
Whose documentation a comment is.  A function declaration around a function expression is also
around whatever stands for the expression, so no comment that leads the declaration documents the
expression.  One node stands for two declarations only when it is the export around both, so other
declarations are documented by different comments.
-/

set_option autoImplicit false
set_option relaxedAutoImplicit false

namespace AnnotatedSource

namespace Tree

variable {tree : Tree} {leading : tree.Id → List Token} {id target : tree.Id}

theorem StandsFor.of_declaration (standsFor : tree.StandsFor leading id target)
    (kind : (tree.node id).kind ∈ [NodeKind.functionDeclaration, .classDeclaration]) :
    (tree.parent? id = some target ∧ (tree.node target).kind.isExport = true) ∨ target = id := by
  have distinct : ∀ kind ∈ [NodeKind.functionDeclaration, .classDeclaration],
      kind ≠ .classExpression ∧ kind ∉ [NodeKind.functionExpression, .arrowFunctionExpression] := by
    decide
  obtain ⟨noClass, noFunction⟩ := distinct _ kind
  cases standsFor with
  | wrapper _ found exports => exact .inl ⟨found, NodeKind.isExport_iff.2 exports⟩
  | declaration => exact .inr rfl
  | classExpression denotes => exact absurd denotes noClass
  | argument denotes | enclosing denotes => exact absurd denotes noFunction

/-- What stands for a function expression is the expression itself or the node above it at which
the climb ends, which is no function declaration. -/
theorem StandsFor.of_function (standsFor : tree.StandsFor leading id target)
    (kind : (tree.node id).kind ∈ [NodeKind.functionExpression, .arrowFunctionExpression]) :
    target = id ∨
      (target ∈ tree.ancestors id ∧ (tree.node target).kind ≠ .functionDeclaration ∧
        ∀ middle ∈ tree.ancestors id, target ∈ tree.ancestors middle →
          tree.Passes leading middle) := by
  have distinct : ∀ kind ∈ [NodeKind.functionExpression, .arrowFunctionExpression],
      kind ≠ .classExpression ∧ kind ∉ [NodeKind.functionDeclaration, .classDeclaration] := by
    decide
  obtain ⟨noClass, noDeclaration⟩ := distinct _ kind
  cases standsFor with
  | wrapper declares | declaration declares => exact absurd declares noDeclaration
  | classExpression denotes => exact absurd denotes noClass
  | argument => exact .inl rfl
  | enclosing _ _ _ above noDeclaration passed => exact .inr ⟨above, noDeclaration, passed⟩

theorem StandsFor.mem_ancestors_of_functionDeclaration {declaration : tree.Id}
    (standsFor : tree.StandsFor leading id target)
    (kind : (tree.node id).kind ∈ [NodeKind.functionExpression, .arrowFunctionExpression])
    (isAbove : declaration ∈ tree.ancestors id)
    (declares : (tree.node declaration).kind = .functionDeclaration) :
    declaration ∈ tree.ancestors target := by
  rcases standsFor.of_function kind with rfl | ⟨above, noDeclaration, passed⟩
  · exact isAbove
  · rcases above_or_eq_or_above isAbove above with higher | rfl | lower
    · exact higher
    · exact absurd declares noDeclaration
    · obtain ⟨-, passes⟩ := passed declaration isAbove lower
      rw [declares] at passes
      exact absurd List.mem_cons_self passes

theorem StandsFor.exports_of_ne {other : tree.Id} (standsFor : tree.StandsFor leading id target)
    (alsoStandsFor : tree.StandsFor leading other target)
    (kind : (tree.node id).kind ∈ [NodeKind.functionDeclaration, .classDeclaration])
    (otherKind : (tree.node other).kind ∈ [NodeKind.functionDeclaration, .classDeclaration])
    (ne : id ≠ other) :
    tree.parent? id = some target ∧ tree.parent? other = some target ∧
      (tree.node target).kind.isExport = true := by
  have noExport : ∀ kind ∈ [NodeKind.functionDeclaration, .classDeclaration],
      kind.isExport ≠ true := by
    decide
  rcases standsFor.of_declaration kind with ⟨found, exports⟩ | rfl
  · rcases alsoStandsFor.of_declaration otherKind with ⟨alsoFound, -⟩ | rfl
    · exact ⟨found, alsoFound, exports⟩
    · exact absurd exports (noExport _ otherKind)
  · rcases alsoStandsFor.of_declaration otherKind with ⟨-, exports⟩ | same
    · exact absurd exports (noExport _ kind)
    · exact absurd same ne

end Tree

namespace Source

variable {source : Source}

def declaredShape : Shape :=
  sampleNode .program (.ofWidth 0 94)
    [sampleNode .exportDefaultDeclaration (.ofWidth 9 85)
      [sampleNode .functionDeclaration (.ofWidth 24 70)
        [sampleNode .identifier (.ofWidth 33 1) [],
          sampleNode .blockStatement (.ofWidth 37 57)
            [sampleNode .functionDeclaration (.ofWidth 48 44)
              [sampleNode .identifier (.ofWidth 57 1) [],
                sampleNode .blockStatement (.ofWidth 61 31)
                  [sampleNode .variableDeclaration (.ofWidth 72 18)
                    [sampleNode .variableDeclarator (.ofWidth 78 11)
                      [sampleNode .identifier (.ofWidth 78 1) [],
                        sampleNode .arrowFunctionExpression (.ofWidth 82 7)
                          [sampleNode .literal (.ofWidth 88 1) []]]]]]]]]]

def declaredStream : Array Token :=
  #[sampleToken .block "* a " (.ofWidth 0 8), sampleToken .keyword "export" (.ofWidth 9 6),
    sampleToken .keyword "default" (.ofWidth 16 7), sampleToken .keyword "function" (.ofWidth 24 8),
    sampleToken .identifier "a" (.ofWidth 33 1), sampleToken .punctuator "(" (.ofWidth 34 1),
    sampleToken .punctuator ")" (.ofWidth 35 1), sampleToken .punctuator "\x7b" (.ofWidth 37 1),
    sampleToken .block "* b " (.ofWidth 39 8), sampleToken .keyword "function" (.ofWidth 48 8),
    sampleToken .identifier "b" (.ofWidth 57 1), sampleToken .punctuator "(" (.ofWidth 58 1),
    sampleToken .punctuator ")" (.ofWidth 59 1), sampleToken .punctuator "\x7b" (.ofWidth 61 1),
    sampleToken .block "* c " (.ofWidth 63 8), sampleToken .keyword "const" (.ofWidth 72 5),
    sampleToken .identifier "c" (.ofWidth 78 1), sampleToken .punctuator "=" (.ofWidth 80 1),
    sampleToken .punctuator "(" (.ofWidth 82 1), sampleToken .punctuator ")" (.ofWidth 83 1),
    sampleToken .punctuator "=>" (.ofWidth 85 2), sampleToken .numeric "0" (.ofWidth 88 1),
    sampleToken .punctuator ";" (.ofWidth 89 1), sampleToken .punctuator "\x7d" (.ofWidth 91 1),
    sampleToken .punctuator "\x7d" (.ofWidth 93 1)]

/-- An exported function with another one inside it, and an arrow function inside that one.  All
three are documented. -/
def declared : Source where
  text :=
    ("/** a */ export default function a() \x7b /** b */ function b() \x7b " ++
      "/** c */ const c = () => 0; \x7d \x7d").toList
  marked := false
  tree := declaredShape.toTree
  tokens := ⟨declaredStream.filter fun token => !token.isComment⟩
  comments := (declaredStream.filter Token.isComment).toList
  stream := ⟨declaredStream⟩

/-- A comment that leads a function declaration documents no function expression inside it, however
deep the expression stands and whatever is around it. -/
theorem not_mem_leading_of_documentationOf (source : Source)
    (separated : source.stream.Separated) (built : source.tree.Built)
    (nested : source.tree.Nested) {id declaration : source.tree.Id}
    (kind : (source.tree.node id).kind ∈
      [NodeKind.functionExpression, .arrowFunctionExpression])
    (isAbove : declaration ∈ source.tree.ancestors id)
    (declares : (source.tree.node declaration).kind = .functionDeclaration) {comment : Token}
    (found : source.documentationOf id = some comment) :
    comment ∉ (source.commentsOf declaration).leading := by
  obtain ⟨target, standsFor, documented⟩ := Tree.exists_standsFor_of_documentation_eq_some found
  have around := standsFor.mem_ancestors_of_functionDeclaration kind isAbove declares
  have disjoint := leading_disjoint_of_mem_ancestors separated built nested
    (standsFor.not_isBareProgram built) around
  intro leads
  exact disjoint leads documented.mem_leading

theorem not_mem_leading_of_documentationOf_arrow :
    (declared.commentsOf ⟨5, by decide⟩).leading =
        [sampleToken .block "* b " (Span.ofWidth 39 8)] ∧
      declared.documentationOf ⟨11, by decide⟩ =
        some (sampleToken .block "* c " (Span.ofWidth 63 8)) ∧
      sampleToken .block "* c " (Span.ofWidth 63 8) ∉
        (declared.commentsOf ⟨5, by decide⟩).leading := by
  have leading : (declared.commentsOf ⟨5, by decide⟩).leading =
      [sampleToken .block "* b " (Span.ofWidth 39 8)] := by decide +kernel
  have found : declared.documentationOf ⟨11, by decide⟩ =
      some (sampleToken .block "* c " (Span.ofWidth 63 8)) := by decide +kernel
  have built : declared.tree.Built := Shape.built_toTree declaredShape
  have isAbove : (⟨5, by decide⟩ : declared.tree.Id) ∈ declared.tree.ancestors ⟨11, by decide⟩ := by
    decide +kernel
  exact ⟨leading, found, not_mem_leading_of_documentationOf declared (by decide +kernel) built
    (by decide +kernel) (by decide) isAbove (by decide) found⟩

/-- Two declarations that are not children of one export are documented by two different comments of
the stream. -/
theorem documentationOf_ne_of_ne (source : Source) (separated : source.stream.Separated)
    (built : source.tree.Built) (coherent : source.tree.Coherent) (filled : source.Filled)
    {m n : source.tree.Id} (distinct : m ≠ n)
    (kindM : (source.tree.node m).kind ∈ [NodeKind.functionDeclaration, .classDeclaration])
    (kindN : (source.tree.node n).kind ∈ [NodeKind.functionDeclaration, .classDeclaration])
    (apart : ¬∃ wrapper, source.tree.parent? m = some wrapper ∧
      source.tree.parent? n = some wrapper ∧ (source.tree.node wrapper).kind.isExport = true)
    {first second : Token} (foundM : source.documentationOf m = some first)
    (foundN : source.documentationOf n = some second) :
    first ∈ source.stream.tokens.toList ∧ second ∈ source.stream.tokens.toList ∧
      first.isComment = true ∧ second.isComment = true ∧ first ≠ second := by
  obtain ⟨targetM, standsForM, documentedM⟩ :=
    Tree.exists_standsFor_of_documentation_eq_some foundM
  obtain ⟨targetN, standsForN, documentedN⟩ :=
    Tree.exists_standsFor_of_documentation_eq_some foundN
  have leadsM := leads_of_mem_leading separated (standsForM.not_isBareProgram built)
    documentedM.mem_leading
  have leadsN := leads_of_mem_leading separated (standsForN.not_isBareProgram built)
    documentedN.mem_leading
  refine ⟨mem_tokens_of_claims separated (.inl documentedM.mem_leading),
    mem_tokens_of_claims separated (.inl documentedN.mem_leading), leadsM.2.1, leadsN.2.1, ?_⟩
  rintro rfl
  by_cases same : targetM = targetN
  · rw [← same] at standsForN
    exact apart ⟨targetM, standsForM.exports_of_ne standsForN kindM kindN distinct⟩
  · exact leading_disjoint separated built coherent filled same documentedM.mem_leading
      documentedN.mem_leading

theorem documentationOf_ne_of_ne_nested :
    declared.documentationOf ⟨2, by decide⟩ =
        some (sampleToken .block "* a " (Span.ofWidth 0 8)) ∧
      declared.documentationOf ⟨5, by decide⟩ =
        some (sampleToken .block "* b " (Span.ofWidth 39 8)) ∧
      sampleToken .block "* a " (Span.ofWidth 0 8) ≠
        sampleToken .block "* b " (Span.ofWidth 39 8) := by
  have outer : declared.documentationOf ⟨2, by decide⟩ =
      some (sampleToken .block "* a " (Span.ofWidth 0 8)) := by decide +kernel
  have inner : declared.documentationOf ⟨5, by decide⟩ =
      some (sampleToken .block "* b " (Span.ofWidth 39 8)) := by decide +kernel
  have coherent : declared.tree.Coherent :=
    ⟨by decide +kernel, by decide +kernel, by decide +kernel⟩
  have distinct : (⟨2, by decide⟩ : declared.tree.Id) ≠ ⟨5, by decide⟩ := by decide
  obtain ⟨-, -, -, -, ne⟩ := documentationOf_ne_of_ne declared (by decide +kernel)
    (Shape.built_toTree declaredShape) coherent (by decide +kernel) distinct (by decide) (by decide)
    (by decide +kernel) outer inner
  exact ⟨outer, inner, ne⟩

end Source

end AnnotatedSource
