import AnnotatedSource.Proofs.Estree.Faults
import AnnotatedSource.Proofs.Json.KeyOrder
import AnnotatedSource.Proofs.Text.ByteOrder

/-!
Where the nodes of a program occur.  An occurrence has an address, the steps from the program down
to it, and a step is a key with the place in the array that stands under it, if one does.  Equal
objects at different addresses are different occurrences.  Since the keys of a program ascend, the
nodes of an object are visited by the bytes of their keys and then by their places.
-/

set_option autoImplicit false
set_option relaxedAutoImplicit false

namespace AnnotatedSource.Estree

structure Step where
  key : String
  place : Option Nat
deriving DecidableEq

/-- The order in which the nodes of an object are visited. -/
inductive Step.Before : Step → Step → Prop
  | key {left right : Step} (order : Text.bytesOf left.key < Text.bytesOf right.key) :
      Before left right
  | place {key : String} {left right : Nat} (order : left < right) :
      Before ⟨key, some left⟩ ⟨key, some right⟩

/-- An object holds a node under a key that may hold children, alone or in an array. -/
inductive Holds (members : List (String × Json)) : Step → List (String × Json) → Prop
  | alone {key : String} {child : List (String × Json)} (held : (key, .object child) ∈ members)
      (free : key ∉ otherKeys) (typed : ∃ name, type? child = some name) :
      Holds members ⟨key, none⟩ child
  | item {key : String} {place : Nat} {items : List Json} {child : List (String × Json)}
      (held : (key, .array items) ∈ members) (free : key ∉ otherKeys)
      (inside : items[place]? = some (.object child)) (typed : ∃ name, type? child = some name) :
      Holds members ⟨key, some place⟩ child

/-- A node of a program with the steps that lead to it. -/
structure Occurrence where
  address : List Step
  node : List (String × Json)

/-- The program occurs at its top, and with each node the nodes that it holds. -/
inductive Occurs (program : List (String × Json)) : Occurrence → Prop
  | top : Occurs program ⟨[], program⟩
  | within {outer : Occurrence} {step : Step} {child : List (String × Json)}
      (above : Occurs program outer) (holds : Holds outer.node step child) :
      Occurs program ⟨outer.address ++ [step], child⟩

/-- The nodes of a value that stands under a key, with the steps to them. -/
def occurrencesIn (key : String) : Json → List (Step × List (String × Json))
  | .array items =>
    items.zipIdx.filterMap fun (item, place) => (node? item).map fun child =>
      (⟨key, some place⟩, child)
  | value => (node? value).toList.map fun child => (⟨key, none⟩, child)

def childOccurrences (members : List (String × Json)) : List (Step × List (String × Json)) :=
  (childMembers members).flatMap fun (key, value) => occurrencesIn key value

theorem isNode_object_iff {members : List (String × Json)} :
    isNode (.object members) = true ↔ ∃ name, type? members = some name :=
  Option.isSome_iff_exists

theorem node?_eq_some_iff_typed {value : Json} {members : List (String × Json)} :
    node? value = some members ↔
      value = .object members ∧ ∃ name, type? members = some name := by
  rw [node?_eq_some_iff]
  constructor
  · rintro ⟨rfl, typed⟩
    exact ⟨rfl, isNode_object_iff.1 typed⟩
  · rintro ⟨rfl, typed⟩
    exact ⟨rfl, isNode_object_iff.2 typed⟩

theorem mem_childMembers_iff {members : List (String × Json)} {key : String} {value : Json} :
    (key, value) ∈ childMembers members ↔ (key, value) ∈ members ∧ key ∉ otherKeys := by
  rw [childMembers, List.mem_filter, Bool.not_eq_true', List.contains_eq_mem,
    decide_eq_false_iff_not]

theorem map_snd_occurrencesIn (key : String) (value : Json) :
    (occurrencesIn key value).map Prod.snd = nodesIn value := by
  unfold occurrencesIn nodesIn
  split
  · next items =>
    dsimp only
    rw [List.map_filterMap, ← List.zipIdx_map_fst 0 items, List.filterMap_map, List.zipIdx_map_fst]
    simp [Option.map_map, Function.comp_def]
  · simp [List.map_map, Function.comp_def]

theorem map_snd_childOccurrences (members : List (String × Json)) :
    (childOccurrences members).map Prod.snd = childNodes members := by
  rw [childOccurrences, childNodes, List.map_flatMap]
  exact List.flatMap_congr fun member _ => map_snd_occurrencesIn member.1 member.2

theorem mem_childOccurrences_iff {members child : List (String × Json)} {step : Step} :
    (step, child) ∈ childOccurrences members ↔ Holds members step child := by
  unfold childOccurrences
  rw [List.mem_flatMap]
  constructor
  · rintro ⟨⟨key, value⟩, held, inside⟩
    obtain ⟨held, free⟩ := mem_childMembers_iff.1 held
    simp only [occurrencesIn] at inside
    split at inside
    · next items =>
      obtain ⟨⟨item, place⟩, stands, found⟩ := List.mem_filterMap.1 inside
      obtain ⟨node, isNode, same⟩ := Option.map_eq_some_iff.1 found
      obtain ⟨rfl, rfl⟩ := Prod.mk.inj same
      obtain ⟨rfl, typed⟩ := node?_eq_some_iff_typed.1 isNode
      exact .item held free (List.mk_mem_zipIdx_iff_getElem?.1 stands) typed
    · next value =>
      obtain ⟨node, isNode, same⟩ := List.mem_map.1 inside
      obtain ⟨rfl, rfl⟩ := Prod.mk.inj same
      obtain ⟨rfl, typed⟩ := node?_eq_some_iff_typed.1 (Option.mem_toList.1 isNode)
      exact .alone held free typed
  · intro holds
    cases holds with
    | @alone key _ held free typed =>
      have found := node?_eq_some_iff_typed.2 ⟨rfl, typed⟩
      refine ⟨(key, .object child), mem_childMembers_iff.2 ⟨held, free⟩, ?_⟩
      exact List.mem_map.2 ⟨child, Option.mem_toList.2 found, rfl⟩
    | @item key place items _ held free inside typed =>
      have found := node?_eq_some_iff_typed.2 ⟨rfl, typed⟩
      refine ⟨(key, .array items), mem_childMembers_iff.2 ⟨held, free⟩, ?_⟩
      refine List.mem_filterMap.2 ⟨_, List.mk_mem_zipIdx_iff_getElem?.2 inside, ?_⟩
      exact congrArg (Option.map _) found

theorem key_of_mem_occurrencesIn {key : String} {value : Json} {found : Step × List (String × Json)}
    (inside : found ∈ occurrencesIn key value) : found.1.key = key := by
  unfold occurrencesIn at inside
  split at inside
  · obtain ⟨_, _, same⟩ := List.mem_filterMap.1 inside
    obtain ⟨_, _, rfl⟩ := Option.map_eq_some_iff.1 same
    rfl
  · obtain ⟨_, _, rfl⟩ := List.mem_map.1 inside
    rfl

theorem pairwise_occurrencesIn (key : String) (value : Json) :
    (occurrencesIn key value).Pairwise fun left right => left.1.Before right.1 := by
  unfold occurrencesIn
  split
  · next items =>
    have places : items.zipIdx.Pairwise fun left right => left.2 < right.2 := by
      rw [← List.pairwise_map, List.zipIdx_map_snd]
      exact List.pairwise_lt_range'
    refine List.pairwise_filterMap.2 (places.imp fun {left right} order => ?_)
    intro first hfirst second hsecond
    obtain ⟨_, _, rfl⟩ := Option.map_eq_some_iff.1 hfirst
    obtain ⟨_, _, rfl⟩ := Option.map_eq_some_iff.1 hsecond
    exact .place order
  · cases node? value with
    | none => exact List.Pairwise.nil
    | some child => exact List.pairwise_singleton _ _

theorem pairwise_childOccurrences {members : List (String × Json)}
    (ascend : Json.KeysAscend members) :
    (childOccurrences members).Pairwise fun left right => left.1.Before right.1 := by
  refine List.pairwise_flatMap.2 ⟨fun member _ => pairwise_occurrencesIn _ _, ?_⟩
  refine (ascend.filter _).imp fun {left right} order => ?_
  intro first hfirst second hsecond
  apply Step.Before.key
  rw [key_of_mem_occurrencesIn hfirst, key_of_mem_occurrencesIn hsecond]
  exact Text.bytesOf_lt_iff.2 order

theorem Step.Before.ne {left right : Step} (before : left.Before right) : left ≠ right := by
  rintro rfl
  cases before with
  | key order => exact List.lt_irrefl _ order
  | place order => exact Nat.lt_irrefl _ order

variable {program : List (String × Json)}

theorem mem_childNodes_iff {members child : List (String × Json)} :
    child ∈ childNodes members ↔ ∃ step, Holds members step child := by
  rw [← map_snd_childOccurrences, List.mem_map]
  constructor
  · rintro ⟨⟨step, node⟩, found, rfl⟩
    exact ⟨step, mem_childOccurrences_iff.1 found⟩
  · rintro ⟨step, holds⟩
    exact ⟨_, mem_childOccurrences_iff.2 holds, rfl⟩

theorem self_mem_nodesFrom (members : List (String × Json)) : members ∈ nodesFrom members := by
  rw [nodesFrom_eq]
  exact List.mem_cons_self

theorem mem_nodesFrom_of_mem_childNodes {members child node : List (String × Json)}
    (isChild : child ∈ childNodes members) (inside : node ∈ nodesFrom child) :
    node ∈ nodesFrom members := by
  rw [nodesFrom_eq]
  exact List.mem_cons_of_mem _ (List.mem_flatMap.2 ⟨child, isChild, inside⟩)

theorem mem_nodesFrom_of_holds {members node child : List (String × Json)} {step : Step}
    (among : node ∈ nodesFrom members) (holds : Holds node step child) :
    child ∈ nodesFrom members := by
  induction members using nodesFrom.induct with
  | case1 members ih =>
    rw [nodesFrom_eq] at among
    rcases List.mem_cons.1 among with rfl | later
    · have isChild := mem_childNodes_iff.2 ⟨step, holds⟩
      exact mem_nodesFrom_of_mem_childNodes isChild (self_mem_nodesFrom child)
    · obtain ⟨between, isChild, inside⟩ := List.mem_flatMap.1 later
      exact mem_nodesFrom_of_mem_childNodes isChild (ih between isChild inside)

theorem Occurs.mem_nodesFrom {occurrence : Occurrence} (occurs : Occurs program occurrence) :
    occurrence.node ∈ nodesFrom program := by
  induction occurs with
  | top => exact self_mem_nodesFrom program
  | within _ holds ih => exact mem_nodesFrom_of_holds ih holds

theorem Occurs.exists_of_mem_nodesFrom {address : List Step} {members node : List (String × Json)}
    (occurs : Occurs program ⟨address, members⟩) (among : node ∈ nodesFrom members) :
    ∃ further, Occurs program ⟨further, node⟩ := by
  induction members using nodesFrom.induct generalizing address with
  | case1 members ih =>
    rw [nodesFrom_eq] at among
    rcases List.mem_cons.1 among with rfl | later
    · exact ⟨address, occurs⟩
    · obtain ⟨child, isChild, inside⟩ := List.mem_flatMap.1 later
      obtain ⟨step, holds⟩ := mem_childNodes_iff.1 isChild
      exact ih child isChild (occurs.within holds) inside

/-- The nodes that are read are the nodes that occur. -/
theorem mem_nodesFrom_iff {node : List (String × Json)} :
    node ∈ nodesFrom program ↔ ∃ address, Occurs program ⟨address, node⟩ :=
  ⟨Occurs.top.exists_of_mem_nodesFrom, fun ⟨_, occurs⟩ => occurs.mem_nodesFrom⟩

theorem Occurs.inKeyOrder {occurrence : Occurrence} (occurs : Occurs program occurrence)
    (ordered : Json.InKeyOrder (.object program)) :
    Json.InKeyOrder (.object occurrence.node) := by
  induction occurs with
  | top => exact ordered
  | within above holds ih =>
    cases ih with
    | object _ inside =>
      cases holds with
      | alone held _ _ => exact inside _ held
      | item held _ stands _ =>
        cases inside _ held with
        | array items => exact items _ (List.mem_of_getElem? stands)

theorem inKeyOrder_of_program? {json : List Char} (holds : program? json = some program) :
    Json.InKeyOrder (.object program) := by
  unfold program? at holds
  split at holds
  · next settled =>
    obtain rfl := Option.some.inj holds
    obtain ⟨whole, -, isSettled⟩ := Option.bind_eq_some_iff.1 settled
    exact Json.inKeyOrder_of_settle? whole isSettled
  · contradiction

theorem Occurs.pairwise_keys {json : List Char} (holds : program? json = some program)
    {occurrence : Occurrence} (occurs : Occurs program occurrence) :
    occurrence.node.Pairwise fun left right => Text.bytesOf left.1 < Text.bytesOf right.1 := by
  cases occurs.inKeyOrder (inKeyOrder_of_program? holds) with
  | object ascend _ => exact ascend.imp fun order => Text.bytesOf_lt_iff.2 order

end AnnotatedSource.Estree
