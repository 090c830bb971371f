import AnnotatedSource.Kind.Set
import AnnotatedSource.TokenSeq
import AnnotatedSource.Tree

/-!
Which comments belong to a node.  The comments before a node lead it and the comments after it
trail it, out to the nearest code token and not beyond the node's parent; comments in an empty
container trail the container, and comments in an empty program lead the program.
-/

set_option autoImplicit false
set_option relaxedAutoImplicit false

namespace AnnotatedSource

/-- The comments of a node, as places in the stream of tokens and comments. -/
structure Attachment where
  leading : List Nat
  trailing : List Nat
deriving DecidableEq

structure Comments where
  leading : List Token
  trailing : List Token
deriving DecidableEq

namespace TokenSeq

/-- The places in `[first, last)` at which comments stand. -/
def commentsIn (stream : TokenSeq) (first last : Nat) : List Nat :=
  (List.range' first (last - first)).filter fun index => (stream.get? index).any Token.isComment

/-- The run of comments that ends at a place, backwards: each step goes to the token before the
last one, until a code token or a comment that starts outside. -/
def runBefore (stream : TokenSeq) (outer : Option Span) (index : Nat) : List Nat :=
  match stream.get? index with
  | none => []
  | some token =>
    if token.isComment && outer.all fun span => span.start ≤ token.span.start then
      match stream.indexBefore? token.span with
      | none => [index]
      | some next =>
        -- A token without width may be its own neighbour; a run only ever moves on.
        if next < index then index :: stream.runBefore outer next else [index]
    else []
termination_by index

/-- The run of comments that starts at a place: each step goes to the token after the last one,
until a code token or a comment that ends outside. -/
def runAfter (stream : TokenSeq) (outer : Option Span) (index : Nat) : List Nat :=
  match h : stream.get? index with
  | none => []
  | some token =>
    have : index < stream.size := (Array.getElem?_eq_some_iff.1 h).choose
    if token.isComment && outer.all fun span => token.span.stop ≤ span.stop then
      match stream.indexAfter? token.span with
      | none => [index]
      | some next =>
        -- A token without width may be its own neighbour; a run only ever moves on.
        if index < next then index :: stream.runAfter outer next else [index]
    else []
termination_by stream.size - index

def select (stream : TokenSeq) (places : List Nat) : List Token := places.filterMap stream.get?

end TokenSeq

def Attachment.comments (attachment : Attachment) (stream : TokenSeq) : Comments :=
  ⟨stream.select attachment.leading, stream.select attachment.trailing⟩

namespace Tree

/-- Whether a node is a container without members.  An elided array element counts as a member, and
of a switch only its cases do. -/
def isEmptyContainer (tree : Tree) (id : tree.Id) : Bool :=
  let node := tree.node id
  if node.kind = .switchStatement then
    !(tree.children id).any fun child => (tree.node child).kind = .switchCase
  else node.kind.isContainer && (tree.children id).isEmpty && node.holes == 0

/-- Where the comments of a node stand in the stream. -/
def attachment (tree : Tree) (stream : TokenSeq) (id : tree.Id) : Attachment :=
  let node := tree.node id
  if node.kind = .program && (tree.children id).isEmpty then
    ⟨stream.commentsIn 0 stream.size, []⟩
  else if tree.isEmptyContainer id then
    let (first, last) := stream.enclosedBounds node.span
    ⟨[], stream.commentsIn first last⟩
  else
    let outer := (tree.parent? id).map fun parent => (tree.node parent).span
    ⟨((stream.indexBefore? node.span).elim [] (stream.runBefore outer)).reverse,
      (stream.indexAfter? node.span).elim [] (stream.runAfter outer)⟩

end Tree

end AnnotatedSource
