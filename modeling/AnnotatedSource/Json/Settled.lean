import AnnotatedSource.Json

/-!
Settled JSON values.  Settling a value refuses what has no value and what is nested too deeply, and
leaves every object with its keys in order and once each, where the last member of a key counts.
-/

set_option autoImplicit false
set_option relaxedAutoImplicit false

namespace AnnotatedSource.Json

/-- The number of arrays and objects that may stand around one another. -/
def depthLimit : Nat := 127

/-- Give a key a value among members that stand in the order of their keys. -/
def insertMember (key : String) (value : Json) : List (String × Json) → List (String × Json)
  | [] => [(key, value)]
  | (other, kept) :: rest =>
    if key < other then (key, value) :: (other, kept) :: rest
    else if key = other then (key, value) :: rest
    else (other, kept) :: insertMember key value rest

/-- Members in the order of their keys, of which the last of each key remains. -/
def sortMembers (members : List (String × Json)) : List (String × Json) :=
  members.foldl (fun sorted (key, value) => insertMember key value sorted) []

mutual

/-- The settled form of a value within so many arrays and objects. -/
def settle? (room : Nat) : Json → Option Json
  | .unreadable => none
  | .array items =>
    if room = 0 then none else (settleItems? (room - 1) items).map .array
  | .object members =>
    if room = 0 then none
    else (settleMembers? (room - 1) members).map fun settled => .object (sortMembers settled)
  | value => some value

def settleItems? (room : Nat) : List Json → Option (List Json)
  | [] => some []
  | item :: rest => do
    let item ← settle? room item
    let rest ← settleItems? room rest
    return item :: rest

def settleMembers? (room : Nat) : List (String × Json) → Option (List (String × Json))
  | [] => some []
  | (key, value) :: rest => do
    let value ← settle? room value
    let rest ← settleMembers? room rest
    return (key, value) :: rest

end

end AnnotatedSource.Json
