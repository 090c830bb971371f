import AnnotatedSource.Proofs.Estree.Written
import AnnotatedSource.Proofs.Tree.Ancestry
import AnnotatedSource.Proofs.Tree.Canonical

/-!
Programs loaded from what they are written as.  A tree, its tokens and its comments are written as
one object.  Loading it gives the source that is made from them directly, provided that the children
of each node are in the order of where they start.
-/

set_option autoImplicit false
set_option relaxedAutoImplicit false

namespace AnnotatedSource

namespace Tree

variable {tree : Tree}

theorem span_shapeAt (id : tree.Id) : (tree.shapeAt id).span = (tree.node id).span := by
  rw [shapeAt_eq]
  rfl

/-- A tree in which no child of a node starts before the child in front of it. -/
def InStartOrder (tree : Tree) : Prop :=
  ∀ id : tree.Id, (tree.children id).Pairwise fun left right =>
    (tree.node left).span.start ≤ (tree.node right).span.start

instance (tree : Tree) : Decidable tree.InStartOrder := Nat.decidableForallFin _

theorem InStartOrder.shapeAt (ordered : tree.InStartOrder) (id : tree.Id) :
    (tree.shapeAt id).Throughout Estree.InStartOrder := by
  induction id using child_induction with
  | above id ih =>
    rw [shapeAt_eq]
    refine .node ?_ ?_
    · refine List.pairwise_map.2 ((ordered id).imp ?_)
      intro left right order
      rwa [span_shapeAt, span_shapeAt]
    · intro child among
      obtain ⟨below, member, rfl⟩ := List.mem_map.1 among
      exact ih below member

end Tree

namespace Estree

/-- The members of the object that a shape, the tokens and the comments are written as. -/
def programMembers (key : NodeKind → String) (shape : Shape) (tokens comments : List Token) :
    List (String × Json) :=
  writtenMembers key shape ++
    [("tokens", .array (tokens.map Token.toJson)), ("comments", .array (comments.map Token.toJson))]

def writtenProgram (key : NodeKind → String) (shape : Shape) (tokens comments : List Token) :
    Json :=
  .object (programMembers key shape tokens comments)

variable {key : NodeKind → String}

theorem readable_writtenProgram (key : NodeKind → String) (shape : Shape)
    (tokens comments : List Token) :
    (writtenProgram key shape tokens comments).readable = true := by
  have members := readable_writtenMembers key shape
  rw [Json.membersReadable_eq_all] at members
  rw [writtenProgram, Json.readable, programMembers, Json.membersReadable_eq_all, List.all_append,
    members, List.all_cons, List.all_cons, Token.readable_list, Token.readable_list]
  rfl

theorem load_programMembers (raw : List Char) (ordinary : ∀ kind, key kind ∉ otherKeys)
    {shape : Shape} (ordered : shape.Throughout InStartOrder) (tokens comments : List Token) :
    load raw (Json.settledObject (programMembers key shape tokens comments)) =
      Source.make raw shape.toTree (some tokens) (some comments) := by
  have accompanies := accompanies_tokens (.array (tokens.map Token.toJson))
    (.array (comments.map Token.toJson))
  have nodup := nodup_keys_written ordinary accompanies shape
  have loaded := nodeShape_written ordinary ordered accompanies
  rw [← programMembers] at nodup loaded
  -- The place of the program is read once for itself and once with its nodes.
  obtain ⟨_, _, _, _, _, hspan, hloc, _, _⟩ := nodeShape_eq_ok_iff.1 loaded
  rw [nodeShape] at loaded
  have tokensMem : ("tokens", Json.array (tokens.map Token.toJson)) ∈
      programMembers key shape tokens comments := List.mem_append_right _ List.mem_cons_self
  have commentsMem : ("comments", Json.array (comments.map Token.toJson)) ∈
      programMembers key shape tokens comments :=
    List.mem_append_right _ (List.mem_cons_of_mem _ List.mem_cons_self)
  have tokensRead := decode_settledObject nodup tokensMem rfl (Token.listOfJson?_settled tokens)
  have commentsRead :=
    decode_settledObject nodup commentsMem rfl (Token.listOfJson?_settled comments)
  simp only [load, tokensRead, commentsRead, hspan, hloc, loaded, bind, Except.bind]

/-- A built tree, its tokens and its comments make the same source when they are given directly and
when they are loaded from the object that they are written as. -/
theorem load_eq_make (raw : List Char) {tree : Tree} (tokens comments : List Token)
    (built : tree.Built) (ordered : tree.InStartOrder)
    (ordinary : ∀ kind, key kind ∉ otherKeys) :
    ∃ source, Source.make raw tree (some tokens) (some comments) = .ok source ∧
      (∀ room, (writtenProgram key tree.shape tokens comments).depth ≤ room →
        ∃ program,
          Json.settle? room (writtenProgram key tree.shape tokens comments) =
            some (.object program) ∧
          load raw program = .ok source) ∧
      ∀ json, Json.read? json = some (writtenProgram key tree.shape tokens comments) →
        (writtenProgram key tree.shape tokens comments).depth ≤ Json.depthLimit →
        loadText raw json = .ok source := by
  have loaded := load_programMembers raw ordinary (ordered.shapeAt tree.root) tokens comments
  rw [← Tree.shape, built.toTree_shape] at loaded
  have settles (room : Nat) (fits : (writtenProgram key tree.shape tokens comments).depth ≤ room) :=
    Json.settle?_eq_some _ (readable_writtenProgram key tree.shape tokens comments) fits
  refine ⟨_, rfl, ?_, ?_⟩
  · intro room fits
    exact ⟨_, settles room fits, loaded⟩
  · intro json read fits
    rw [loadText, read, Option.bind_some, settles _ fits]
    exact loaded

def holeShape : Shape :=
  .node .program (.ofWidth 0 4) .zero 0
    [.node .expressionStatement (.ofWidth 0 4) .zero 0
      [.node .arrayExpression (.ofWidth 0 4) .zero 1
        [.node .identifier (.ofWidth 2 1) .zero 0 []]]]

def holeTokens : List Token :=
  [⟨.punctuator, "[", .ofWidth 0 1, .zero⟩, ⟨.punctuator, ",", .ofWidth 1 1, .zero⟩,
    ⟨.identifier, "a", .ofWidth 2 1, .zero⟩, ⟨.punctuator, "]", .ofWidth 3 1, .zero⟩]

def holeComments : List Token := [⟨.line, " c", .ofWidth 5 4, .zero⟩]

/-- The elements of an array under a key of their own. -/
def holeKey (kind : NodeKind) : String := if kind = .arrayExpression then "elements" else "body"

theorem load_eq_make_hole :
    ∃ source program,
      Source.make "[,a] // c".toList holeShape.toTree (some holeTokens) (some holeComments) =
        .ok source ∧
      Json.settle? Json.depthLimit
          (writtenProgram holeKey holeShape.toTree.shape holeTokens holeComments) =
        some (.object program) ∧
      load "[,a] // c".toList program = .ok source := by
  have ordered : holeShape.toTree.InStartOrder := by decide +kernel
  have ordinary (kind : NodeKind) : holeKey kind ∉ otherKeys := by
    unfold holeKey
    split <;> decide
  have fits : (writtenProgram holeKey holeShape.toTree.shape holeTokens holeComments).depth ≤
      Json.depthLimit := by
    decide +kernel
  obtain ⟨source, made, loads, -⟩ := load_eq_make "[,a] // c".toList holeTokens holeComments
    holeShape.built_toTree ordered ordinary
  obtain ⟨program, settled, loaded⟩ := loads _ fits
  exact ⟨source, program, made, settled, loaded⟩

end Estree

end AnnotatedSource
