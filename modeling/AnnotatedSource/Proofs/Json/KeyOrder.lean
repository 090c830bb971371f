import AnnotatedSource.Json.Settled
import Mathlib.Data.String.Basic

/-!
The order of keys.  A settled value has the members of every object in it in the order of their
keys, and no key twice.
-/

set_option autoImplicit false
set_option relaxedAutoImplicit false

namespace AnnotatedSource.Json

/-- Members in the order of their keys, of which each is there once. -/
def KeysAscend (members : List (String × Json)) : Prop :=
  members.Pairwise fun left right => left.1 < right.1

/-- A value in which the members of every object stand in the order of their keys. -/
inductive InKeyOrder : Json → Prop
  | null : InKeyOrder .null
  | bool (value : Bool) : InKeyOrder (.bool value)
  | number (literal : Numeral) : InKeyOrder (.number literal)
  | string (value : String) : InKeyOrder (.string value)
  | array {items : List Json} (inside : ∀ item ∈ items, InKeyOrder item) :
      InKeyOrder (.array items)
  | object {members : List (String × Json)} (ascend : KeysAscend members)
      (inside : ∀ member ∈ members, InKeyOrder member.2) : InKeyOrder (.object members)

variable {key : String} {value : Json} {members sorted : List (String × Json)}

theorem eq_or_mem_of_mem_insertMember {member : String × Json}
    (among : member ∈ insertMember key value sorted) : member = (key, value) ∨ member ∈ sorted := by
  induction sorted with
  | nil => exact .inl (List.mem_singleton.1 among)
  | cons head rest ih =>
    obtain ⟨other, kept⟩ := head
    rw [insertMember] at among
    split at among
    · exact List.mem_cons.1 among
    · split at among
      · exact (List.mem_cons.1 among).imp_right (List.mem_cons_of_mem _)
      · rcases List.mem_cons.1 among with rfl | later
        · exact .inr List.mem_cons_self
        · exact (ih later).imp_right (List.mem_cons_of_mem _)

theorem keysAscend_insertMember (ascend : KeysAscend sorted) :
    KeysAscend (insertMember key value sorted) := by
  induction sorted with
  | nil => exact List.pairwise_singleton _ _
  | cons head rest ih =>
    obtain ⟨other, kept⟩ := head
    obtain ⟨least, later⟩ := List.pairwise_cons.1 ascend
    rw [insertMember]
    split
    · next before =>
      refine List.pairwise_cons.2 ⟨fun member among => ?_, ascend⟩
      rcases List.mem_cons.1 among with rfl | among
      · exact before
      · exact before.trans (least member among)
    · next notBefore =>
      split
      · next same => exact List.pairwise_cons.2 ⟨same ▸ least, later⟩
      · next differs =>
        refine List.pairwise_cons.2 ⟨fun member among => ?_, ih later⟩
        rcases eq_or_mem_of_mem_insertMember among with rfl | among
        · exact lt_of_le_of_ne (not_lt.1 notBefore) (Ne.symm differs)
        · exact least member among

theorem keysAscend_sortMembers (members : List (String × Json)) :
    KeysAscend (sortMembers members) := by
  refine List.foldlRecOn members _ List.Pairwise.nil ?_
  intro sorted ascend member _
  exact keysAscend_insertMember ascend

theorem mem_of_mem_sortMembers {member : String × Json} (among : member ∈ sortMembers members) :
    member ∈ members := by
  have kept : ∀ other ∈ sortMembers members, other ∈ members := by
    refine List.foldlRecOn members _ (motive := fun sorted => ∀ other ∈ sorted, other ∈ members)
      (List.forall_mem_nil _) ?_
    intro sorted inside added isMember other hother
    rcases eq_or_mem_of_mem_insertMember hother with rfl | before
    · exact isMember
    · exact inside other before
  exact kept member among

mutual

theorem inKeyOrder_of_settle? {room : Nat} {settled : Json} (json : Json)
    (h : settle? room json = some settled) : InKeyOrder settled := by
  match json with
  | .null =>
    obtain rfl := Option.some.inj h
    exact .null
  | .bool value =>
    obtain rfl := Option.some.inj h
    exact .bool value
  | .number literal =>
    obtain rfl := Option.some.inj h
    exact .number literal
  | .string value =>
    obtain rfl := Option.some.inj h
    exact .string value
  | .array items =>
    rw [settle?] at h
    split at h
    · contradiction
    · obtain ⟨inside, hinside, rfl⟩ := Option.map_eq_some_iff.1 h
      exact .array (inKeyOrder_of_settleItems? items hinside)
  | .object members =>
    rw [settle?] at h
    split at h
    · contradiction
    · obtain ⟨inside, hinside, rfl⟩ := Option.map_eq_some_iff.1 h
      have ordered := inKeyOrder_of_settleMembers? members hinside
      refine .object (keysAscend_sortMembers inside) fun member among => ?_
      exact ordered member (mem_of_mem_sortMembers among)

theorem inKeyOrder_of_settleItems? {room : Nat} {settled : List Json} (items : List Json)
    (h : settleItems? room items = some settled) : ∀ item ∈ settled, InKeyOrder item := by
  match items with
  | [] =>
    obtain rfl := Option.some.inj h
    exact List.forall_mem_nil _
  | item :: rest =>
    rw [settleItems?] at h
    obtain ⟨first, hfirst, h⟩ := Option.bind_eq_some_iff.1 h
    obtain ⟨later, hlater, same⟩ := Option.bind_eq_some_iff.1 h
    obtain rfl := Option.some.inj same
    exact List.forall_mem_cons.2
      ⟨inKeyOrder_of_settle? item hfirst, inKeyOrder_of_settleItems? rest hlater⟩

theorem inKeyOrder_of_settleMembers? {room : Nat} {settled : List (String × Json)}
    (members : List (String × Json)) (h : settleMembers? room members = some settled) :
    ∀ member ∈ settled, InKeyOrder member.2 := by
  match members with
  | [] =>
    obtain rfl := Option.some.inj h
    exact List.forall_mem_nil _
  | (key, value) :: rest =>
    rw [settleMembers?] at h
    obtain ⟨first, hfirst, h⟩ := Option.bind_eq_some_iff.1 h
    obtain ⟨later, hlater, same⟩ := Option.bind_eq_some_iff.1 h
    obtain rfl := Option.some.inj same
    exact List.forall_mem_cons.2
      ⟨inKeyOrder_of_settle? value hfirst, inKeyOrder_of_settleMembers? rest hlater⟩

end

end AnnotatedSource.Json
