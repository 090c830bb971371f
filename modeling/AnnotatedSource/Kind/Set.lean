import AnnotatedSource.Kind

/-!
Finite sets of node kinds, kept as two words with one bit per kind.  The vocabulary is longer than
one word, so the kinds of index 64 and above live in the high word.
-/

set_option autoImplicit false
set_option relaxedAutoImplicit false

namespace AnnotatedSource

/-- A set of node kinds: bit `i` of the low word is kind `i`, of the high word kind `64 + i`. -/
structure KindSet where
  low : BitVec 64
  high : BitVec 64
deriving DecidableEq

namespace KindSet

def empty : KindSet := ⟨0, 0⟩

/-- The bit of a kind within its word. -/
def mask (kind : NodeKind) : BitVec 64 := 1#64 <<< (kind.index % 64)

def singleton (kind : NodeKind) : KindSet :=
  if kind.index / 64 = 0 then ⟨mask kind, 0⟩ else ⟨0, mask kind⟩

def union (left right : KindSet) : KindSet :=
  ⟨left.low ||| right.low, left.high ||| right.high⟩

def ofList (kinds : List NodeKind) : KindSet :=
  kinds.foldl (fun set kind => set.union (singleton kind)) empty

def contains (set : KindSet) (kind : NodeKind) : Bool :=
  let word := if kind.index / 64 = 0 then set.low else set.high
  word &&& mask kind != 0

def members (set : KindSet) : List NodeKind :=
  NodeKind.all.filter set.contains

end KindSet

namespace NodeKind

/-- The kinds that declare or denote a function. -/
def functions : KindSet :=
  .ofList [.functionDeclaration, .functionExpression, .arrowFunctionExpression]

/-- The kinds that wrap what a module exports. -/
def exports : KindSet :=
  .ofList [.exportDefaultDeclaration, .exportNamedDeclaration, .exportAllDeclaration,
    .exportSpecifier]

def calls : KindSet := .ofList [.callExpression, .newExpression]

/-- The kinds that hold members between brackets. -/
def containers : KindSet :=
  .ofList [.blockStatement, .classBody, .objectExpression, .arrayExpression, .switchStatement]

def isFunction (kind : NodeKind) : Bool := functions.contains kind

def isExport (kind : NodeKind) : Bool := exports.contains kind

def isCall (kind : NodeKind) : Bool := calls.contains kind

def isContainer (kind : NodeKind) : Bool := containers.contains kind

end NodeKind

end AnnotatedSource
