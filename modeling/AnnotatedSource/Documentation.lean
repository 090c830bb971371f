import AnnotatedSource.Comments

/-!
Documentation of functions and classes.  The documentation of a node is the last documentation
comment that leads the node, or the node that stands for it: the export around a declaration, the
declaration around a class expression, the nearest enclosing node worth documenting around a
function expression.

The lookup asks for leading comments through a reader of its caller, so that one rule serves a
reader that computes them anew and a reader that remembers them.
-/

set_option autoImplicit false
set_option relaxedAutoImplicit false

namespace AnnotatedSource

/-- Whether a token is a documentation comment: a block comment whose text starts with a star. -/
def Token.isDocumentation (token : Token) : Bool :=
  token.kind = .block && token.value.toList.head? == some '*'

/-- The last documentation comment of several, if it ends at most one line above a line. -/
def documentationAbove? (leading : List Token) (line : Nat) : Option Token :=
  (leading.reverse.find? Token.isDocumentation).filter fun comment =>
    line ≤ comment.loc.stop.line + 1

/-- Whether the search for documentation around a function expression ends at a node of this kind
even if no comment leads it. -/
def NodeKind.endsClimb (kind : NodeKind) : Bool :=
  kind.isFunction || kind = .methodDefinition || kind = .property

namespace Tree

variable {m : Type → Type} [Monad m]

/-- The documentation comment directly above a node. -/
def documentationAt (tree : Tree) (leading : tree.Id → m (List Token)) (id : tree.Id) :
    m (Option Token) := do
  return documentationAbove? (← leading id) (tree.node id).loc.start.line

/-- The first of several nodes, taken outwards, that has leading comments or ends the climb. -/
def climb (tree : Tree) (leading : tree.Id → m (List Token)) :
    List tree.Id → m (Option tree.Id)
  | [] => return none
  | id :: outer => do
    let comments ← leading id
    if !comments.isEmpty || (tree.node id).kind.endsClimb then return some id
    else tree.climb leading outer

def documentation (tree : Tree) (leading : tree.Id → m (List Token)) (id : tree.Id) :
    m (Option Token) :=
  match (tree.node id).kind with
  | .functionDeclaration | .classDeclaration =>
    let wrapper := (tree.parent? id).filter fun parent => (tree.node parent).kind.isExport
    tree.documentationAt leading (wrapper.getD id)
  | .classExpression =>
    match (tree.parent? id).bind tree.parent? with
    | none => return none
    | some declaration => tree.documentationAt leading declaration
  | .functionExpression | .arrowFunctionExpression =>
    match tree.parent? id with
    | none => return none
    | some parent =>
      if (tree.node parent).kind.isCall then tree.documentationAt leading id
      else do
        match ← tree.climb leading (tree.ancestors id) with
        | none => return none
        | some target =>
          if (tree.node target).kind = .functionDeclaration then return none
          else tree.documentationAt leading target
  | _ => return none

end Tree

end AnnotatedSource
