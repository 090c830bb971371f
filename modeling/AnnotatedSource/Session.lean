import AnnotatedSource.Source
import Std.Data.HashMap

/-!
Sessions with a source.  A session remembers where the comments of each node stand, so that asking
twice computes once.
-/

set_option autoImplicit false
set_option relaxedAutoImplicit false

namespace AnnotatedSource

/-- The attachments computed so far, by node. -/
abbrev Memory (source : Source) : Type := Std.HashMap source.tree.Id Attachment

/-- A computation that may recall and remember attachments. -/
abbrev Session (source : Source) : Type → Type := StateM (Memory source)

namespace Session

variable {source : Source}

/-- Where the comments of a node stand, recalled or computed and remembered. -/
def attachment (id : source.tree.Id) : Session source Attachment := do
  match (← get)[id]? with
  | some recalled => return recalled
  | none =>
    let computed := source.attachment id
    modify (·.insert id computed)
    return computed

def commentsOf (id : source.tree.Id) : Session source Comments := do
  return (← attachment id).comments source.stream

def documentationOf (id : source.tree.Id) : Session source (Option Token) :=
  source.tree.documentation (fun target => do return (← commentsOf target).leading) id

/-- Every node with its comments and its documentation. -/
def report : Session source (List (source.tree.Id × Comments × Option Token)) :=
  source.tree.ids.mapM fun id => do return (id, ← commentsOf id, ← documentationOf id)

end Session

end AnnotatedSource
