import AnnotatedSource.Json.Numeral
import AnnotatedSource.Span

/-!
JSON values as they are written.  An object keeps its members in the order of the text, repeated
keys included.  Some well-formed texts have no value: numbers beyond the doubles, strings with half
of a surrogate pair, and objects with such a string for a key.
-/

set_option autoImplicit false
set_option relaxedAutoImplicit false

namespace AnnotatedSource

/-- A JSON value, or a stretch of well-formed text that has none. -/
inductive Json where
  | null
  | bool (value : Bool)
  | number (literal : Numeral)
  | string (value : String)
  | array (items : List Json)
  | object (members : List (String × Json))
  | unreadable

namespace Json

def isNull : Json → Bool
  | .null => true
  | _ => false

/-- The value of a key that is written exactly once. -/
def only? (members : List (String × Json)) (key : String) : Option Json :=
  match members.filter fun member => member.1 == key with
  | [(_, value)] => some value
  | _ => none

/-- The values of a record, which is written as an object with these keys and any others, or as the
array of the values in this order. -/
def fields? (keys : List String) : Json → Option (List Json)
  | .object members => keys.mapM (only? members)
  | .array items => if items.length = keys.length then some items else none
  | _ => none

/-- A number that is a plain count below the bound of offsets. -/
def count? : Json → Option Nat
  | .number literal => literal.natural?.filter fun n => n < offsetBound
  | _ => none

def ofCount (n : Nat) : Json := .number (.ofNat n)

end Json

end AnnotatedSource
