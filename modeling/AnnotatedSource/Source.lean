import AnnotatedSource.Documentation
import AnnotatedSource.Text.Gap
import AnnotatedSource.Text.Opening
import AnnotatedSource.Text.Place
import AnnotatedSource.Tree.Locate
import AnnotatedSource.Tree.Outline

/-!
Annotated sources: the text of one script with its syntax tree, its code tokens, its comments, and
the stream of both in the order of the text.
-/

set_option autoImplicit false
set_option relaxedAutoImplicit false

namespace AnnotatedSource

/-- Why a source could not be made from what a parser reported. -/
inductive LoadError where
  | missing (field : String)
  | malformed
  | unknownKind (name : String)
  | invertedSpan
deriving DecidableEq

/-- What a failure to load is reported as, where its cause has a wording of its own. -/
def LoadError.message? : LoadError → Option String
  | .missing field => some ("missing required AST data: " ++ field)
  | .unknownKind name => some ("unknown ESTree node type `" ++ name ++ "`")
  | .malformed | .invertedSpan => none

/-- The text of a script with all that a parser found in it. -/
structure Source where
  text : List Char
  marked : Bool
  tree : Tree
  tokens : TokenSeq
  comments : List Token
  stream : TokenSeq

namespace Source

/-- The comments of a script.  A first line comment that says what the interpreter line says is
the interpreter line. -/
def recognizeInterpreter (text : List Char) : List Token → List Token
  | [] => []
  | first :: rest =>
    if first.kind = .line ∧ Text.interpreter? text = some first.value.toList then
      { first with kind := .shebang } :: rest
    else first :: rest

/-- A source from the raw text, whose byte-order mark is dropped, and what a parser reported, which
must hold code tokens and comments. -/
def make (raw : List Char) (tree : Tree) (tokens comments : Option (List Token)) :
    Except LoadError Source :=
  match tokens, comments with
  | none, _ => .error (.missing "tokens")
  | some _, none => .error (.missing "comments")
  | some tokens, some comments =>
    let text := Text.unmarked raw
    let comments := recognizeInterpreter text comments
    .ok
      { text
        marked := Text.isMarked raw
        tree
        tokens := ⟨tokens.toArray⟩
        comments
        stream := .merge tokens comments }

/-- The text that a span covers with some bytes before it and after it. -/
def textAround (source : Source) (span : Span) (before after : Nat) : List Char :=
  Text.slice source.text (span.start - before) (span.stop + after)

def textOf (source : Source) (span : Span) : List Char := source.textAround span 0 0

/-- Whether white space separates two spans, comments that stay on one line left aside. -/
def isSpaceBetween (source : Source) (first second : Span) : Bool :=
  Text.isSpaced (Text.slice source.text first.stop second.start)

/-- Whether a comment stands between two spans. -/
def hasCommentBetween (source : Source) (left right : Span) : Bool :=
  (source.stream.between left right).any Token.isComment

/-- Where the comments of a node stand in the stream. -/
def attachment (source : Source) (id : source.tree.Id) : Attachment :=
  source.tree.attachment source.stream id

def commentsOf (source : Source) (id : source.tree.Id) : Comments :=
  (source.attachment id).comments source.stream

def documentationOf (source : Source) (id : source.tree.Id) : Option Token :=
  Id.run (source.tree.documentation (fun target => pure (source.commentsOf target).leading) id)

def summary (source : Source) : String :=
  "SourceCode \x7b text_len: " ++ toString (Text.byteLength source.text) ++
    ", has_bom: " ++ toString source.marked ++ ", nodes: " ++ toString source.tree.size ++
    ", tokens: " ++ toString source.tokens.size ++
    ", comments: " ++ toString source.comments.length ++ ", .. \x7d"

end Source

end AnnotatedSource
