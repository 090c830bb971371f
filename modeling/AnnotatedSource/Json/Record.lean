import AnnotatedSource.Json
import AnnotatedSource.Kind
import AnnotatedSource.Token

/-!
Tokens and places written as JSON.  A record is written as an object and read from an object with
any further members, or from the array of its fields; a kind is written as its name and read from
its name or from the object that has the name for its one key and null for its value.
-/

set_option autoImplicit false
set_option relaxedAutoImplicit false

namespace AnnotatedSource

/-- The name that a value stands for: a string, or the one key of an object whose value is null. -/
def Json.variant? : Json → Option String
  | .string name => some name
  | .object [(name, .null)] => some name
  | _ => none

def Json.ends? : Json → Option (Nat × Nat)
  | .array [start, stop] => do return (← start.count?, ← stop.count?)
  | _ => none

namespace NodeKind

def toJson (kind : NodeKind) : Json := .string kind.name

def ofJson? (json : Json) : Option NodeKind := json.variant?.bind ofName?

end NodeKind

namespace TokenKind

def toJson (kind : TokenKind) : Json := .string kind.name

def ofJson? (json : Json) : Option TokenKind := json.variant?.bind ofName?

end TokenKind

namespace Span

def toJson (span : Span) : Json := .array [.ofCount span.start, .ofCount span.stop]

def ofJson? (json : Json) : Option Span :=
  json.ends?.bind fun (start, stop) => ofEnds? start stop

end Span

namespace Position

def keys : List String := ["line", "column"]

def toJson (position : Position) : Json :=
  .object [("line", .ofCount position.line), ("column", .ofCount position.column)]

def ofJson? (json : Json) : Option Position :=
  match json.fields? keys with
  | some [line, column] => do ofCounts? (← line.count?) (← column.count?)
  | _ => none

end Position

namespace Location

def keys : List String := ["start", "end"]

def toJson (loc : Location) : Json :=
  .object [("start", loc.start.toJson), ("end", loc.stop.toJson)]

def ofJson? (json : Json) : Option Location :=
  match json.fields? keys with
  | some [start, stop] => do return ⟨← Position.ofJson? start, ← Position.ofJson? stop⟩
  | _ => none

end Location

namespace Token

def keys : List String := ["type", "value", "range", "loc"]

def toJson (token : Token) : Json :=
  .object [("type", token.kind.toJson), ("value", .string token.value),
    ("range", token.span.toJson), ("loc", token.loc.toJson)]

def ofJson? (json : Json) : Option Token :=
  match json.fields? keys with
  | some [kind, .string value, span, loc] => do
    return ⟨← TokenKind.ofJson? kind, value, ← Span.ofJson? span, ← Location.ofJson? loc⟩
  | _ => none

def listOfJson? : Json → Option (List Token)
  | .array items => items.mapM ofJson?
  | _ => none

end Token

end AnnotatedSource
