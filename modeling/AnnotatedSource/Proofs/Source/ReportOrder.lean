import AnnotatedSource.Proofs.Comments.Relabel
import AnnotatedSource.Proofs.Documentation.Policy
import AnnotatedSource.Tree.Shape
import Mathlib.Data.List.Nodup
import Mathlib.Data.List.Perm.Subperm

/-!
The order in which a parser reports comments.  It decides which comment is taken for the interpreter
line and nothing else: the streams of two orders differ at most in the kind of two comments, and no
query tells the two kinds apart.
-/

set_option autoImplicit false
set_option relaxedAutoImplicit false

namespace AnnotatedSource

theorem Span.AllApart.nodup {spans : List Span} (apart : AllApart spans) : spans.Nodup := by
  refine apart.apart.imp_of_mem fun {left right} member _ disjoint same => ?_
  have nonempty := apart.nonempty left member
  have order := Span.apart_iff.1 disjoint
  subst same
  omega

/-- The token as an interpreter line, if it is the one that was recognized as such. -/
def Token.retag (interpreter : Option Token) (token : Token) : Token :=
  if interpreter = some token then { token with kind := .shebang } else token

/-- Two reports of one token: the same, or as a line comment by one and as an interpreter line by
the other. -/
def Token.SameButInterpreter (left right : Token) : Prop :=
  left = right ∨ (left.kind = .line ∧ right = { left with kind := .shebang }) ∨
    (right.kind = .line ∧ left = { right with kind := .shebang })

namespace Token

variable {interpreter other : Option Token}

theorem retag_of_eq {token : Token} (h : interpreter = some token) :
    token.retag interpreter = { token with kind := .shebang } :=
  if_pos h

theorem retag_of_ne {token : Token} (h : interpreter ≠ some token) :
    token.retag interpreter = token :=
  if_neg h

theorem relabels_retag (line : ∀ token ∈ interpreter, token.kind = .line) :
    Relabels (retag interpreter) where
  span_eq token := by
    unfold retag
    split <;> rfl
  isComment_eq token := by
    by_cases h : interpreter = some token
    · rw [retag_of_eq h, isComment, isComment, line token h]
      rfl
    · rw [retag_of_ne h]

theorem retag_of_documents (line : ∀ token ∈ interpreter, token.kind = .line) {token : Token}
    (documents : token.Documents) : token.retag interpreter = token := by
  apply retag_of_ne
  intro h
  have isBlock := documents.1
  rw [line token h] at isBlock
  contradiction

theorem documents_retag_iff (line : ∀ token ∈ interpreter, token.kind = .line) {token : Token} :
    (token.retag interpreter).Documents ↔ token.Documents := by
  by_cases h : interpreter = some token
  · rw [retag_of_eq h]
    simp [Documents, line token h]
  · rw [retag_of_ne h]

theorem sameButInterpreter_retag (line : ∀ token ∈ interpreter, token.kind = .line)
    (lineOther : ∀ token ∈ other, token.kind = .line) (token : Token) :
    SameButInterpreter (token.retag interpreter) (token.retag other) := by
  by_cases h : interpreter = some token <;> by_cases hother : other = some token
  · exact .inl (by rw [retag_of_eq h, retag_of_eq hother])
  · refine .inr (.inr ?_)
    rw [retag_of_eq h, retag_of_ne hother]
    exact ⟨line token h, rfl⟩
  · refine .inr (.inl ?_)
    rw [retag_of_ne h, retag_of_eq hother]
    exact ⟨lineOther token hother, rfl⟩
  · exact .inl (by rw [retag_of_ne h, retag_of_ne hother])

theorem countP_retag_ne_le {tokens : List Token} (nodup : tokens.Nodup) :
    (tokens.countP fun token => token.retag interpreter ≠ token.retag other) ≤ 2 := by
  rw [List.countP_eq_length_filter]
  have among : (tokens.filter fun token => token.retag interpreter ≠ token.retag other) ⊆
      interpreter.toList ++ other.toList := by
    intro token member
    have differ := of_decide_eq_true (List.mem_filter.1 member).2
    rw [List.mem_append, Option.mem_toList, Option.mem_toList]
    by_contra neither
    obtain ⟨h, hother⟩ := not_or.1 neither
    exact differ ((retag_of_ne h).trans (retag_of_ne hother).symm)
  have bound := (List.subperm_of_subset (nodup.filter _) among).length_le
  have shortLeft := Option.length_toList_le (o := interpreter)
  have shortRight := Option.length_toList_le (o := other)
  rw [List.length_append] at bound
  omega

end Token

theorem lastDocumentation_map {f : Token → Token}
    (fixes : ∀ token : Token, token.Documents → f token = token)
    (keeps : ∀ token, (f token).Documents ↔ token.Documents) {comments : List Token}
    {comment : Token} :
    LastDocumentation (comments.map f) comment ↔ LastDocumentation comments comment := by
  constructor
  · rintro ⟨documents, before, after, split, none⟩
    obtain ⟨front, rest, rfl, rfl, restEq⟩ := List.map_eq_append_iff.1 split
    obtain ⟨token, back, rfl, rfl, rfl⟩ := List.map_eq_cons_iff.1 restEq
    have same := fixes token ((keeps token).1 documents)
    rw [same] at documents ⊢
    refine ⟨documents, front, back, rfl, fun later member => ?_⟩
    exact mt (keeps later).2 (none _ (List.mem_map_of_mem member))
  · rintro ⟨documents, before, after, rfl, none⟩
    refine ⟨documents, before.map f, after.map f, ?_, ?_⟩
    · rw [List.map_append, List.map_cons, fixes comment documents]
    · intro later member
      obtain ⟨token, inAfter, rfl⟩ := List.mem_map.1 member
      exact mt (keeps token).1 (none token inAfter)

namespace Tree

variable {tree : Tree} {leading other : tree.Id → List Token}

theorem StandsFor.congr (empty : ∀ id, leading id = [] ↔ other id = []) {id target : tree.Id}
    (standsFor : tree.StandsFor leading id target) : tree.StandsFor other id target := by
  cases standsFor with
  | wrapper kind found exports => exact .wrapper kind found exports
  | declaration kind bare => exact .declaration kind bare
  | classExpression kind found above => exact .classExpression kind found above
  | argument kind found call => exact .argument kind found call
  | enclosing kind found noCall above noDeclaration passed =>
    refine .enclosing kind found noCall above noDeclaration fun middle member higher => ?_
    have passes := passed middle member higher
    exact ⟨(empty middle).1 passes.1, passes.2⟩

theorem documentation_congr (empty : ∀ id, leading id = [] ↔ other id = [])
    (last : ∀ id comment,
      LastDocumentation (leading id) comment ↔ LastDocumentation (other id) comment)
    (id : tree.Id) :
    Id.run (tree.documentation (reading leading) id) =
      Id.run (tree.documentation (reading other) id) := by
  refine Option.ext fun comment => ⟨fun found => ?_, fun found => ?_⟩
  · obtain ⟨target, standsFor, documented⟩ := exists_standsFor_of_documentation_eq_some found
    exact documentation_eq_some_of_standsFor (standsFor.congr empty)
      ⟨(last target comment).1 documented.1, documented.2⟩
  · obtain ⟨target, standsFor, documented⟩ := exists_standsFor_of_documentation_eq_some found
    exact documentation_eq_some_of_standsFor (standsFor.congr fun id => (empty id).symm)
      ⟨(last target comment).2 documented.1, documented.2⟩

end Tree

namespace Source

def interpreterOf (text : List Char) (comments : List Token) : Option Token :=
  comments.head?.filter fun first =>
    first.kind = .line ∧ Text.interpreter? text = some first.value.toList

variable {text : List Char} {tokens comments : List Token}

theorem kind_of_mem_interpreterOf {token : Token} (h : token ∈ interpreterOf text comments) :
    token.kind = .line := by
  obtain ⟨-, line⟩ := Option.filter_eq_some_iff.1 h
  exact (of_decide_eq_true line).1

theorem mem_of_mem_interpreterOf {token : Token} (h : token ∈ interpreterOf text comments) :
    token ∈ comments := by
  obtain ⟨first, -⟩ := Option.filter_eq_some_iff.1 h
  exact List.mem_of_mem_head? first

theorem map_retag_eq_self {lexemes : List Token}
    (absent : ∀ token ∈ interpreterOf text comments, token ∉ lexemes) :
    lexemes.map (Token.retag (interpreterOf text comments)) = lexemes := by
  refine (List.map_congr_left fun token member => ?_).trans (List.map_id _)
  exact Token.retag_of_ne fun h => absent token h member

theorem recognizeInterpreter_eq_map (nodup : comments.Nodup) :
    recognizeInterpreter text comments =
      comments.map (Token.retag (interpreterOf text comments)) := by
  cases comments with
  | nil => rfl
  | cons first rest =>
    have absent : ∀ token ∈ interpreterOf text (first :: rest), token ∉ rest := by
      intro token member
      obtain ⟨isFirst, -⟩ := Option.filter_eq_some_iff.1 member
      obtain rfl := Option.some.inj isFirst
      exact (List.nodup_cons.1 nodup).1
    rw [List.map_cons, map_retag_eq_self absent, recognizeInterpreter]
    split
    · next recognized =>
      rw [Token.retag_of_eq]
      simp [interpreterOf, recognized]
    · next unrecognized =>
      rw [Token.retag_of_ne]
      simp [interpreterOf, unrecognized]

theorem merge_recognizeInterpreter (nodup : (tokens ++ comments).Nodup) :
    TokenSeq.merge tokens (recognizeInterpreter text comments) =
      (TokenSeq.merge tokens comments).map (Token.retag (interpreterOf text comments)) := by
  obtain ⟨-, commentsNodup, disjoint⟩ := List.nodup_append.1 nodup
  have untouched : tokens.map (Token.retag (interpreterOf text comments)) = tokens := by
    refine map_retag_eq_self fun token member inTokens => ?_
    exact disjoint token inTokens token (mem_of_mem_interpreterOf member) rfl
  rw [recognizeInterpreter_eq_map commentsNodup]
  conv_lhs => rw [← untouched]
  exact TokenSeq.merge_map (Token.relabels_retag fun _ => kind_of_mem_interpreterOf) tokens comments

def leadingIn (tree : Tree) (stream : TokenSeq) (id : tree.Id) : List Token :=
  ((tree.attachment stream id).comments stream).leading

theorem documentation_retag (tree : Tree) (stream : TokenSeq) {interpreter : Option Token}
    (line : ∀ token ∈ interpreter, token.kind = .line) (id : tree.Id) :
    Id.run (tree.documentation
        (reading (leadingIn tree (stream.map (Token.retag interpreter)))) id) =
      Id.run (tree.documentation (reading (leadingIn tree stream)) id) := by
  have leading_eq (target : tree.Id) :
      leadingIn tree (stream.map (Token.retag interpreter)) target =
        (leadingIn tree stream target).map (Token.retag interpreter) := by
    rw [leadingIn, tree.attachment_map (Token.relabels_retag line), Attachment.comments,
      TokenSeq.select_map]
    rfl
  refine Tree.documentation_congr (fun target => ?_) (fun target comment => ?_) id
  · rw [leading_eq, List.map_eq_nil_iff]
  · rw [leading_eq]
    exact lastDocumentation_map (fun _ => Token.retag_of_documents line)
      fun _ => Token.documents_retag_iff line

theorem any_isComment_between_map {f : Token → Token} (relabels : Token.Relabels f)
    (stream : TokenSeq) (left right : Span) :
    ((stream.map f).between left right).any Token.isComment =
      (stream.between left right).any Token.isComment := by
  rw [TokenSeq.between_map relabels, List.any_map]
  congr 1
  funext token
  exact relabels.isComment_eq token

/-- The stream of the source that is made where comments are reported so. -/
def reportedStream (raw : List Char) (tokens comments : List Token) : TokenSeq :=
  .merge tokens (recognizeInterpreter (Text.unmarked raw) comments)

/-- Two orders in which the comments of a text may be reported give sources whose streams agree in
every place, but for at most two comments of which one source takes the one and the other the other
for the interpreter line.  In both sources the comments of a node stand in the same places, the same
comment documents it, and comments stand between the same spans. -/
theorem queries_eq_of_perm (raw : List Char) (tree : Tree) (tokens : List Token)
    {first second : List Token} (perm : first.Perm second)
    (apart : Span.AllApart ((tokens ++ first).map Token.span)) :
    ∃ left right,
      make raw tree (some tokens) (some first) = .ok left ∧
      make raw tree (some tokens) (some second) = .ok right ∧
      (List.Forall₂ Token.SameButInterpreter left.stream.tokens.toList
          right.stream.tokens.toList ∧
        ((left.stream.tokens.toList.zip right.stream.tokens.toList).countP fun pair =>
          pair.1 ≠ pair.2) ≤ 2) ∧
      (∀ (i : left.tree.Id) (j : right.tree.Id), i.val = j.val →
        left.attachment i = right.attachment j ∧
          left.documentationOf i = right.documentationOf j) ∧
      ∀ before after,
        left.hasCommentBetween before after = right.hasCommentBetween before after := by
  have nodup : (tokens ++ first).Nodup := List.Nodup.of_map Token.span apart.nodup
  have nodupSecond : (tokens ++ second).Nodup := (perm.append_left tokens).nodup_iff.1 nodup
  have line (comments : List Token) :
      ∀ token ∈ interpreterOf (Text.unmarked raw) comments, token.kind = .line :=
    fun _ => kind_of_mem_interpreterOf
  have relabels (comments : List Token) := Token.relabels_retag (line comments)
  -- Both streams are the stream of one order, each with a comment of its own retagged.
  have leftStream : reportedStream raw tokens first = _ := merge_recognizeInterpreter nodup
  have rightStream : reportedStream raw tokens second = _ := merge_recognizeInterpreter nodupSecond
  rw [← TokenSeq.merge_eq_of_perm perm apart] at rightStream
  have baseNodup : (TokenSeq.merge tokens first).tokens.toList.Nodup :=
    TokenSeq.perm_merge.nodup_iff.2 nodup
  have same : List.Forall₂ Token.SameButInterpreter
      (reportedStream raw tokens first).tokens.toList
      (reportedStream raw tokens second).tokens.toList := by
    rw [leftStream, rightStream, TokenSeq.toList_map, TokenSeq.toList_map,
      List.forall₂_map_left_iff, List.forall₂_map_right_iff, List.forall₂_same]
    exact fun token _ => Token.sameButInterpreter_retag (line first) (line second) token
  have few : (((reportedStream raw tokens first).tokens.toList.zip
      (reportedStream raw tokens second).tokens.toList).countP fun pair =>
        pair.1 ≠ pair.2) ≤ 2 := by
    rw [leftStream, rightStream, TokenSeq.toList_map, TokenSeq.toList_map, List.zip_map',
      List.countP_map]
    exact Token.countP_retag_ne_le baseNodup
  have attached (id : tree.Id) : tree.attachment (reportedStream raw tokens first) id =
      tree.attachment (reportedStream raw tokens second) id := by
    rw [leftStream, rightStream, tree.attachment_map (relabels first),
      tree.attachment_map (relabels second)]
  have documented (id : tree.Id) :
      Id.run (tree.documentation (reading (leadingIn tree (reportedStream raw tokens first))) id) =
        Id.run (tree.documentation (reading (leadingIn tree (reportedStream raw tokens second)))
          id) := by
    rw [leftStream, rightStream, documentation_retag tree _ (line first),
      documentation_retag tree _ (line second)]
  have commented (before after : Span) :
      ((reportedStream raw tokens first).between before after).any Token.isComment =
        ((reportedStream raw tokens second).between before after).any Token.isComment := by
    rw [leftStream, rightStream, any_isComment_between_map (relabels first),
      any_isComment_between_map (relabels second)]
  refine ⟨_, _, rfl, rfl, ⟨same, few⟩, ?_, commented⟩
  intro i j sameIndex
  obtain rfl : i = j := Fin.ext sameIndex
  exact ⟨attached i, documented i⟩

def scriptShape : Shape :=
  .node .program (.ofWidth 0 29) .zero 0
    [.node .functionDeclaration (.ofWidth 12 14) .zero 0
      [.node .identifier (.ofWidth 21 1) .zero 0 [],
        .node .blockStatement (.ofWidth 24 2) .zero 0 []]]

def scriptTokens : List Token :=
  [⟨.keyword, "function", .ofWidth 12 8, .zero⟩, ⟨.identifier, "f", .ofWidth 21 1, .zero⟩,
    ⟨.punctuator, "(", .ofWidth 22 1, .zero⟩, ⟨.punctuator, ")", .ofWidth 23 1, .zero⟩,
    ⟨.punctuator, "\x7b", .ofWidth 24 1, .zero⟩, ⟨.punctuator, "\x7d", .ofWidth 25 1, .zero⟩]

/-- The comments of a script in which the last one says what the interpreter line says. -/
def scriptComments : List Token :=
  [⟨.line, "x", .ofWidth 0 3, .zero⟩, ⟨.block, "* d ", .ofWidth 4 8, .zero⟩,
    ⟨.line, "x", .ofWidth 26 3, .zero⟩]

theorem queries_eq_of_perm_reverse :
    scriptComments.Perm scriptComments.reverse ∧
      Span.AllApart ((scriptTokens ++ scriptComments).map Token.span) ∧
      ∃ left right,
        make "#!x\n/** d */function f()\x7b\x7d//x".toList scriptShape.toTree (some scriptTokens)
          (some scriptComments) = .ok left ∧
        make "#!x\n/** d */function f()\x7b\x7d//x".toList scriptShape.toTree (some scriptTokens)
          (some scriptComments.reverse) = .ok right ∧
        left.comments.map Token.kind = [.shebang, .block, .line] ∧
        right.comments.map Token.kind = [.shebang, .block, .line] ∧
        (∀ (i : left.tree.Id) (j : right.tree.Id), i.val = j.val →
          left.documentationOf i = right.documentationOf j) ∧
        ∀ before after,
          left.hasCommentBetween before after = right.hasCommentBetween before after := by
  have perm : scriptComments.Perm scriptComments.reverse := (List.reverse_perm _).symm
  have apart : Span.AllApart ((scriptTokens ++ scriptComments).map Token.span) :=
    ⟨by decide, by decide⟩
  obtain ⟨left, right, hleft, hright, -, agree, between⟩ :=
    queries_eq_of_perm "#!x\n/** d */function f()\x7b\x7d//x".toList scriptShape.toTree
      scriptTokens perm apart
  refine ⟨perm, apart, left, right, hleft, hright, ?_, ?_, fun i j same => (agree i j same).2,
    between⟩
  · obtain rfl := Except.ok.inj hleft
    decide
  · obtain rfl := Except.ok.inj hright
    decide

end Source

end AnnotatedSource
