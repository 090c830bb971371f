import AnnotatedSource.Json
import AnnotatedSource.Json.Lexeme

/-!
Reading JSON values.  A reader takes lexeme after lexeme and keeps the arrays and objects that are
still open, the innermost first, so that values may be nested to any depth.
-/

set_option autoImplicit false
set_option relaxedAutoImplicit false

namespace AnnotatedSource.Json

/-- A member as it is read; its key may be a string without value. -/
abbrev ReadMember : Type := Option String × Json

/-- An array or object around the place of reading, with what was read of it, the last first. -/
inductive Enclosing where
  | array (items : List Json)
  | object (members : List ReadMember) (key : Option String)

/-- What a reader expects next. -/
inductive Reader where
  | item (around : List Enclosing)
  | firstItem (around : List Enclosing)
  | firstKey (around : List Enclosing)
  | nextKey (members : List ReadMember) (around : List Enclosing)
  | colon (members : List ReadMember) (key : Option String) (around : List Enclosing)
  | afterItem (items : List Json) (around : List Enclosing)
  | afterMember (members : List ReadMember) (around : List Enclosing)
  | finished (whole : Json)

namespace Reader

def objectOf (members : List ReadMember) : Json :=
  match members.reverse.mapM fun (key, value) => key.map (·, value) with
  | some members => .object members
  | none => .unreadable

def deliver (value : Json) : List Enclosing → Reader
  | [] => .finished value
  | .array items :: around => .afterItem (value :: items) around
  | .object members key :: around => .afterMember ((key, value) :: members) around

def begin? (around : List Enclosing) : Lexeme → Option Reader
  | .beginArray => some (.firstItem around)
  | .beginObject => some (.firstKey around)
  | .null => some (deliver .null around)
  | .bool value => some (deliver (.bool value) around)
  | .number literal =>
    some (deliver (if literal.isFinite then .number literal else .unreadable) around)
  | .string value => some (deliver (value.elim .unreadable .string) around)
  | _ => none

def step? : Reader → Lexeme → Option Reader
  | .item around, lexeme => begin? around lexeme
  | .firstItem around, .endArray => some (deliver (.array []) around)
  | .firstItem around, lexeme => begin? (.array [] :: around) lexeme
  | .firstKey around, .endObject => some (deliver (.object []) around)
  | .firstKey around, .string key => some (.colon [] key around)
  | .nextKey members around, .string key => some (.colon members key around)
  | .colon members key around, .colon => some (.item (.object members key :: around))
  | .afterItem items around, .comma => some (.item (.array items :: around))
  | .afterItem items around, .endArray => some (deliver (.array items.reverse) around)
  | .afterMember members around, .comma => some (.nextKey members around)
  | .afterMember members around, .endObject => some (deliver (objectOf members) around)
  | _, _ => none

def value? : Reader → Option Json
  | .finished whole => some whole
  | _ => none

end Reader

def read? (text : List Char) : Option Json := do
  let lexemes ← lexemes? text
  let reader ← lexemes.foldlM Reader.step? (.item [])
  reader.value?

end AnnotatedSource.Json
