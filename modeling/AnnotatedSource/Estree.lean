import AnnotatedSource.Json.Reader
import AnnotatedSource.Json.Record
import AnnotatedSource.Json.Settled
import AnnotatedSource.Source
import AnnotatedSource.Tree.Shape

/-!
Loading ESTree programs.  A program is an object with a type, a range and a location, and with the
tokens and comments of its text.  Whatever object has a string for its type is a node, and a node's
children are the nodes that stand in its members, alone or in arrays; null in such an array is a
hole.  Some keys never hold children.
-/

set_option autoImplicit false
set_option relaxedAutoImplicit false

namespace AnnotatedSource.Estree

/-- The keys whose values are never searched for children. -/
def otherKeys : List String :=
  ["type", "range", "loc", "start", "end", "tokens", "comments", "parent", "leadingComments",
   "trailingComments", "innerComments"]

/-- The value of a key that must be there and not be null. -/
def field (members : List (String × Json)) (key : String) : Except LoadError Json :=
  match members.lookup key with
  | none | some .null => .error (.missing key)
  | some value => .ok value

/-- The value read from a key that must be there. -/
def decode {α : Type} (members : List (String × Json)) (key : String)
    (ofJson? : Json → Option α) : Except LoadError α := do
  match ofJson? (← field members key) with
  | some value => return value
  | none => .error .malformed

def type? (members : List (String × Json)) : Option String :=
  match members.lookup "type" with
  | some (.string name) => some name
  | _ => none

def isNode : Json → Bool
  | .object members => (type? members).isSome
  | _ => false

def kind (members : List (String × Json)) : Except LoadError NodeKind :=
  let name := (type? members).getD ""
  match NodeKind.ofName? name with
  | some kind => .ok kind
  | none => .error (.unknownKind name)

def span (members : List (String × Json)) : Except LoadError Span := do
  let (start, stop) ← decode members "range" Json.ends?
  match Span.ofEnds? start stop with
  | some span => return span
  | none => .error .invertedSpan

def location (members : List (String × Json)) : Except LoadError Location :=
  decode members "loc" Location.ofJson?

/-- The number of holes that a value contributes to the node it belongs to. -/
def holesIn : Json → Nat
  | .array items => items.countP Json.isNull
  | _ => 0

def holes : List (String × Json) → Nat
  | [] => 0
  | (key, value) :: rest =>
    (if otherKeys.contains key then 0 else holesIn value) + holes rest

/-- Shapes in the order of where they start; where starts agree they keep their order. -/
def sortByStart (shapes : List Shape) : List Shape :=
  shapes.mergeSort fun left right => left.span.start ≤ right.span.start

mutual

/-- The shape of an object and of the nodes below it.  What the object says of itself is read
before its children are. -/
def shape : Json → Except LoadError Shape
  | .object members => do
    let kind ← kind members
    let span ← span members
    let loc ← location members
    let children ← shapesInMembers members
    return .node kind span loc (holes members) (sortByStart children)
  | _ => .error .malformed

def shapesInMembers : List (String × Json) → Except LoadError (List Shape)
  | [] => .ok []
  | (key, value) :: rest => do
    let here ←
      if otherKeys.contains key then .ok []
      else
        match value with
        | .array items => shapesInItems items
        | value => if isNode value then (shape value).map ([·]) else .ok []
    let later ← shapesInMembers rest
    return here ++ later

def shapesInItems : List Json → Except LoadError (List Shape)
  | [] => .ok []
  | item :: rest => do
    let here ← if isNode item then (shape item).map ([·]) else .ok []
    let later ← shapesInItems rest
    return here ++ later

end

/-- The source of a text and the members of its program.  The token lists are read first, then the
program's own place, then its nodes from the top. -/
def load (raw : List Char) (program : List (String × Json)) : Except LoadError Source := do
  let tokens ← decode program "tokens" Token.listOfJson?
  let comments ← decode program "comments" Token.listOfJson?
  -- The program's location is read before its range; every node below reads its range first.
  let _ ← location program
  let _ ← span program
  let shape ← shape (.object program)
  Source.make raw shape.toTree tokens comments

def loadText (raw json : List Char) : Except LoadError Source :=
  match Json.read? json |>.bind (Json.settle? Json.depthLimit) with
  | some (.object program) => load raw program
  | _ => .error .malformed

end AnnotatedSource.Estree
