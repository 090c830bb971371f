import AnnotatedSource.Json.Settled
import Mathlib.Data.List.Perm.Basic

/-!
What settling leaves of a value.  A value that can be read and is not nested too deeply has a
settled form, which settles what stands inside it.  Where the keys of an object differ its members
are only rearranged, so each key keeps its value.
-/

set_option autoImplicit false
set_option relaxedAutoImplicit false

namespace AnnotatedSource.Json

mutual

def readable : Json → Bool
  | .unreadable => false
  | .array items => itemsReadable items
  | .object members => membersReadable members
  | _ => true

def itemsReadable : List Json → Bool
  | [] => true
  | item :: rest => readable item && itemsReadable rest

def membersReadable : List (String × Json) → Bool
  | [] => true
  | (_, value) :: rest => readable value && membersReadable rest

end

mutual

/-- The number of arrays and objects that stand around one another in a value. -/
def depth : Json → Nat
  | .array items => itemsDepth items + 1
  | .object members => membersDepth members + 1
  | _ => 0

def itemsDepth : List Json → Nat
  | [] => 0
  | item :: rest => max (depth item) (itemsDepth rest)

def membersDepth : List (String × Json) → Nat
  | [] => 0
  | (_, value) :: rest => max (depth value) (membersDepth rest)

end

mutual

/-- A value with every object in it settled. -/
def settled : Json → Json
  | .array items => .array (settledItems items)
  | .object members => .object (sortMembers (settledMembers members))
  | value => value

def settledItems : List Json → List Json
  | [] => []
  | item :: rest => settled item :: settledItems rest

def settledMembers : List (String × Json) → List (String × Json)
  | [] => []
  | (key, value) :: rest => (key, settled value) :: settledMembers rest

end

mutual

theorem settle?_eq_some {room : Nat} (json : Json) (readable : json.readable = true)
    (fits : json.depth ≤ room) : settle? room json = some json.settled := by
  match json with
  | .null | .bool _ | .number _ | .string _ => rfl
  | .array items =>
    rw [depth] at fits
    have inside := settleItems?_eq_some items readable (Nat.le_sub_one_of_lt fits)
    rw [settle?, if_neg (Nat.ne_zero_of_lt fits), inside]
    rfl
  | .object members =>
    rw [depth] at fits
    have inside := settleMembers?_eq_some members readable (Nat.le_sub_one_of_lt fits)
    rw [settle?, if_neg (Nat.ne_zero_of_lt fits), inside]
    rfl

theorem settleItems?_eq_some {room : Nat} (items : List Json)
    (readable : itemsReadable items = true) (fits : itemsDepth items ≤ room) :
    settleItems? room items = some (settledItems items) := by
  match items with
  | [] => rfl
  | item :: rest =>
    obtain ⟨itemReadable, restReadable⟩ := Bool.and_eq_true_iff.1 readable
    obtain ⟨itemFits, restFits⟩ := Nat.max_le.1 fits
    rw [settleItems?, settle?_eq_some item itemReadable itemFits,
      settleItems?_eq_some rest restReadable restFits]
    rfl

theorem settleMembers?_eq_some {room : Nat} (members : List (String × Json))
    (readable : membersReadable members = true) (fits : membersDepth members ≤ room) :
    settleMembers? room members = some (settledMembers members) := by
  match members with
  | [] => rfl
  | (key, value) :: rest =>
    obtain ⟨valueReadable, restReadable⟩ := Bool.and_eq_true_iff.1 readable
    obtain ⟨valueFits, restFits⟩ := Nat.max_le.1 fits
    rw [settleMembers?, settle?_eq_some value valueReadable valueFits,
      settleMembers?_eq_some rest restReadable restFits]
    rfl

end

theorem itemsReadable_eq_all (items : List Json) : itemsReadable items = items.all readable := by
  induction items with
  | nil => rfl
  | cons item rest ih => rw [itemsReadable, ih, List.all_cons]

theorem membersReadable_eq_all (members : List (String × Json)) :
    membersReadable members = members.all fun member => member.2.readable := by
  induction members with
  | nil => rfl
  | cons member rest ih => rw [membersReadable, ih, List.all_cons]

theorem settledItems_eq_map (items : List Json) : settledItems items = items.map settled := by
  induction items with
  | nil => rfl
  | cons item rest ih => rw [settledItems, ih, List.map_cons]

theorem settledMembers_eq_map (members : List (String × Json)) :
    settledMembers members = members.map fun member => (member.1, member.2.settled) := by
  induction members with
  | nil => rfl
  | cons member rest ih => rw [settledMembers, ih, List.map_cons]

theorem perm_insertMember {key : String} {sorted : List (String × Json)} (value : Json)
    (fresh : key ∉ sorted.map Prod.fst) :
    (insertMember key value sorted).Perm ((key, value) :: sorted) := by
  induction sorted with
  | nil => exact .refl _
  | cons member rest ih =>
    obtain ⟨other, kept⟩ := member
    obtain ⟨differs, later⟩ := not_or.1 (mt List.mem_cons.2 fresh)
    rw [insertMember, if_neg differs]
    split
    · exact .refl _
    · exact ((ih later).cons (other, kept)).trans (.swap _ _ _)

variable {members : List (String × Json)}

private theorem perm_foldl_insertMember {sorted : List (String × Json)}
    (nodup : ((members ++ sorted).map Prod.fst).Nodup) :
    (members.foldl (fun sorted (key, value) => insertMember key value sorted) sorted).Perm
      (members ++ sorted) := by
  induction members generalizing sorted with
  | nil => exact .refl _
  | cons member rest ih =>
    obtain ⟨key, value⟩ := member
    rw [List.cons_append, List.map_cons, List.nodup_cons, List.map_append] at nodup
    have fresh : key ∉ sorted.map Prod.fst := fun h => nodup.1 (List.mem_append_right _ h)
    have moved : (rest ++ insertMember key value sorted).Perm ((key, value) :: (rest ++ sorted)) :=
      ((perm_insertMember value fresh).append_left rest).trans List.perm_middle
    refine (ih ((moved.map Prod.fst).nodup_iff.2 ?_)).trans moved
    rw [List.map_cons, List.map_append]
    exact List.nodup_cons.2 nodup

def settledObject (members : List (String × Json)) : List (String × Json) :=
  sortMembers (settledMembers members)

section DistinctKeys

variable (nodup : (members.map Prod.fst).Nodup)
include nodup

theorem perm_sortMembers : (sortMembers members).Perm members := by
  have perm : (sortMembers members).Perm (members ++ []) :=
    perm_foldl_insertMember (by rwa [List.append_nil])
  rwa [List.append_nil] at perm

theorem perm_settledObject :
    (settledObject members).Perm (members.map fun member => (member.1, member.2.settled)) := by
  rw [← settledMembers_eq_map]
  refine perm_sortMembers ?_
  rwa [settledMembers_eq_map, List.map_map]

theorem nodup_keys_settledObject : ((settledObject members).map Prod.fst).Nodup := by
  refine ((perm_settledObject nodup).map Prod.fst).nodup_iff.2 ?_
  rwa [List.map_map]

variable {key : String} {value : Json} (mem : (key, value) ∈ members)
include mem

theorem exists_cut_of_mem :
    ∃ before after, members = before ++ (key, value) :: after ∧
      (∀ member ∈ before, member.1 ≠ key) ∧ ∀ member ∈ after, member.1 ≠ key := by
  obtain ⟨before, after, rfl⟩ := List.append_of_mem mem
  rw [List.map_append, List.map_cons] at nodup
  obtain ⟨notIn, -⟩ := List.nodup_cons.1 (List.perm_middle.nodup_iff.1 nodup)
  rw [List.mem_append, not_or, List.mem_map, List.mem_map] at notIn
  exact ⟨before, after, rfl, fun member among same => notIn.1 ⟨member, among, same⟩,
    fun member among same => notIn.2 ⟨member, among, same⟩⟩

theorem lookup_eq_some_of_mem : members.lookup key = some value := by
  obtain ⟨before, after, rfl, others, -⟩ := exists_cut_of_mem nodup mem
  refine List.lookup_eq_some_iff.2 ⟨before, after, rfl, ?_⟩
  exact fun member among => bne_iff_ne.2 (others member among).symm

theorem mem_settledObject : (key, value.settled) ∈ settledObject members :=
  (perm_settledObject nodup).mem_iff.2 (List.mem_map.2 ⟨(key, value), mem, rfl⟩)

theorem lookup_settledObject : (settledObject members).lookup key = some value.settled :=
  lookup_eq_some_of_mem (nodup_keys_settledObject nodup) (mem_settledObject nodup mem)

end DistinctKeys

end AnnotatedSource.Json
