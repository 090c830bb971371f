import AnnotatedSource.Json.Settled
import Mathlib.Data.List.Forall2
import Mathlib.Data.List.Perm.Basic

/-!
The fields of a record.  They are read from an array that has them in their order, and from an
object that has each of them once, wherever it stands among members with other keys; and from
nothing else.  A value from which they are read may be settled before, which settles the fields.
-/

set_option autoImplicit false
set_option relaxedAutoImplicit false

namespace AnnotatedSource

theorem mapM_eq_some_iff {α β : Type} {read : α → Option β} {items : List α} {results : List β} :
    items.mapM read = some results ↔
      List.Forall₂ (fun item result => read item = some result) items results := by
  induction items generalizing results with
  | nil =>
    rw [List.mapM_nil, List.forall₂_nil_left_iff, Option.pure_def, Option.some.injEq, eq_comm]
  | cons item rest ih =>
    rw [List.mapM_cons, List.forall₂_cons_left_iff]
    simp only [Option.bind_eq_bind, Option.bind_eq_some_iff, Option.pure_def, Option.some.injEq,
      ← ih]
    constructor
    · rintro ⟨result, here, others, later, rfl⟩
      exact ⟨result, others, here, later, rfl⟩
    · rintro ⟨result, others, here, later, rfl⟩
      exact ⟨result, here, others, later, rfl⟩

namespace Json

/-- The records of some fields: an array of their values, or an object that has them for members,
in any order and beside any members with other keys. -/
inductive RecordOf (fields : List (String × Json)) : Json → Prop
  | array : RecordOf fields (.array (fields.map Prod.snd))
  | object {members : List (String × Json)} (others : List (String × Json))
      (foreign : ∀ member ∈ others, member.1 ∉ fields.map Prod.fst)
      (perm : members.Perm (fields ++ others)) : RecordOf fields (.object members)

theorem RecordOf.members (fields : List (String × Json)) : RecordOf fields (.object fields) :=
  .object [] (List.forall_mem_nil _) (by rw [List.append_nil])

def membersAt (key : String) (members : List (String × Json)) : List (String × Json) :=
  members.filter fun member => member.1 == key

variable {key : String} {value : Json} {members : List (String × Json)}

theorem only?_eq_some_iff :
    only? members key = some value ↔ membersAt key members = [(key, value)] := by
  unfold only? membersAt
  split
  · next other found single =>
    have among : (other, found) ∈ members.filter fun member => member.1 == key := by
      rw [single]
      exact List.mem_singleton_self _
    obtain rfl : other = key := eq_of_beq (List.mem_filter.1 among).2
    simp [single]
  · next many =>
    constructor
    · nofun
    · intro single
      exact absurd single (many key value)

theorem membersAt_eq_nil_iff : membersAt key members = [] ↔ ∀ member ∈ members, member.1 ≠ key := by
  simp [membersAt]

theorem membersAt_cons_of_ne {member : String × Json} (differs : member.1 ≠ key) :
    membersAt key (member :: members) = membersAt key members :=
  List.filter_cons_of_neg (mt beq_iff_eq.1 differs)

theorem membersAt_cons_self (value : Json) (members : List (String × Json)) :
    membersAt key ((key, value) :: members) = (key, value) :: membersAt key members :=
  List.filter_cons_of_pos (beq_self_eq_true key)

theorem only?_congr {others : List (String × Json)} (perm : members.Perm others) :
    only? members key = some value ↔ only? others key = some value := by
  have same : (membersAt key members).Perm (membersAt key others) := perm.filter _
  rw [only?_eq_some_iff, only?_eq_some_iff]
  constructor
  · intro single
    exact List.perm_singleton.1 (single ▸ same.symm)
  · intro single
    exact List.perm_singleton.1 (single ▸ same)

theorem only?_eq_some_iff_perm :
    only? members key = some value ↔
      ∃ others, (∀ member ∈ others, member.1 ≠ key) ∧ members.Perm ((key, value) :: others) := by
  constructor
  · intro only
    refine ⟨members.filter fun member => !(member.1 == key), ?_, ?_⟩
    · intro member among same
      have differs := (List.mem_filter.1 among).2
      rw [same, beq_self_eq_true] at differs
      contradiction
    · have cut := List.filter_append_perm (fun member => member.1 == key) members
      change (membersAt key members ++ _).Perm members at cut
      rw [only?_eq_some_iff.1 only] at cut
      exact cut.symm
  · rintro ⟨others, foreign, perm⟩
    rw [only?_congr perm, only?_eq_some_iff, membersAt_cons_self, membersAt_eq_nil_iff.2 foreign]

theorem forall_only?_iff {fields : List (String × Json)} (nodup : (fields.map Prod.fst).Nodup) :
    (∀ field ∈ fields, only? members field.1 = some field.2) ↔
      ∃ others, (∀ member ∈ others, member.1 ∉ fields.map Prod.fst) ∧
        members.Perm (fields ++ others) := by
  induction fields generalizing members with
  | nil => exact iff_of_true (List.forall_mem_nil _) ⟨members, fun _ _ => List.not_mem_nil, .refl _⟩
  | cons field rest ih =>
    obtain ⟨key, value⟩ := field
    rw [List.map_cons, List.nodup_cons] at nodup
    obtain ⟨fresh, nodup⟩ := nodup
    have differs {other : String × Json} (among : other ∈ rest) : key ≠ other.1 :=
      fun same => fresh (List.mem_map.2 ⟨other, among, same.symm⟩)
    -- What the other fields have for values, they have behind the first field too.
    have behind {others : List (String × Json)} (perm : members.Perm ((key, value) :: others)) :
        (∀ other ∈ rest, only? members other.1 = some other.2) ↔
          ∀ other ∈ rest, only? others other.1 = some other.2 := by
      refine forall₂_congr fun other among => ?_
      rw [only?_congr perm, only?_eq_some_iff, membersAt_cons_of_ne (differs among),
        ← only?_eq_some_iff]
    rw [List.forall_mem_cons, only?_eq_some_iff_perm]
    constructor
    · rintro ⟨⟨others, foreign, perm⟩, later⟩
      obtain ⟨beyond, foreign', perm'⟩ := (ih nodup).1 ((behind perm).1 later)
      refine ⟨beyond, fun member among => ?_, perm.trans (perm'.cons _)⟩
      rw [List.map_cons, List.mem_cons, not_or]
      exact ⟨foreign member (perm'.mem_iff.2 (List.mem_append_right _ among)),
        foreign' member among⟩
    · rintro ⟨others, foreign, perm⟩
      rw [List.cons_append] at perm
      refine ⟨⟨rest ++ others, fun member among => ?_, perm⟩, (behind perm).2 ?_⟩
      · rcases List.mem_append.1 among with inRest | beyond
        · exact (differs inRest).symm
        · intro same
          exact foreign member beyond (List.mem_cons.2 (.inl same))
      · refine (ih nodup).2 ⟨others, fun member among inRest => ?_, .refl _⟩
        exact foreign member among (List.mem_cons_of_mem _ inRest)

/-- The fields of a record are read from its records and from nothing else. -/
theorem fields?_eq_some_iff {json : Json} {keys : List String} {fields : List (String × Json)}
    (nodup : keys.Nodup) (keyed : fields.map Prod.fst = keys) :
    json.fields? keys = some (fields.map Prod.snd) ↔ RecordOf fields json := by
  subst keyed
  cases json with
  | object members =>
    rw [fields?, mapM_eq_some_iff, List.forall₂_map_left_iff, List.forall₂_map_right_iff,
      List.forall₂_same, forall_only?_iff nodup]
    constructor
    · rintro ⟨others, foreign, perm⟩
      exact .object others foreign perm
    · intro record
      cases record with
      | object others foreign perm => exact ⟨others, foreign, perm⟩
  | array items =>
    rw [fields?]
    constructor
    · intro read
      split at read
      · obtain rfl := Option.some.inj read
        exact .array
      · contradiction
    · intro record
      cases record with
      | array => simp
  | _ =>
    constructor
    · nofun
    · intro record
      cases record

section Settling

variable {room : Nat}

theorem settleItems?_eq_mapM (items : List Json) :
    settleItems? room items = items.mapM (settle? room) := by
  induction items with
  | nil => rfl
  | cons item rest ih =>
    rw [settleItems?, List.mapM_cons, ih]

theorem settleMembers?_eq_mapM (members : List (String × Json)) :
    settleMembers? room members =
      members.mapM fun member => (settle? room member.2).map (member.1, ·) := by
  induction members with
  | nil => rfl
  | cons member rest ih =>
    rw [settleMembers?, List.mapM_cons, ih]
    cases settle? room member.2 <;> rfl

theorem membersAt_insertMember_of_ne {other : String} (differs : other ≠ key)
    (sorted : List (String × Json)) :
    membersAt key (insertMember other value sorted) = membersAt key sorted := by
  induction sorted with
  | nil => exact membersAt_cons_of_ne differs
  | cons member rest ih =>
    obtain ⟨present, kept⟩ := member
    rw [insertMember]
    split
    · exact membersAt_cons_of_ne differs
    · split
      · next same =>
        rw [membersAt_cons_of_ne differs, membersAt_cons_of_ne (same ▸ differs)]
      · unfold membersAt at ih ⊢
        rw [List.filter_cons, List.filter_cons, ih]

theorem membersAt_insertMember_of_nil {sorted : List (String × Json)}
    (absent : membersAt key sorted = []) :
    membersAt key (insertMember key value sorted) = [(key, value)] := by
  induction sorted with
  | nil => exact membersAt_cons_self value []
  | cons member rest ih =>
    obtain ⟨present, kept⟩ := member
    have differs : present ≠ key := membersAt_eq_nil_iff.1 absent _ List.mem_cons_self
    rw [membersAt_cons_of_ne differs] at absent
    rw [insertMember]
    split
    · rw [membersAt_cons_self, membersAt_cons_of_ne differs, absent]
    · rw [if_neg differs.symm, membersAt_cons_of_ne differs, ih absent]

theorem membersAt_foldl_insertMember {sorted : List (String × Json)}
    (once : membersAt key sorted ++ membersAt key members = [(key, value)]) :
    membersAt key (members.foldl (fun sorted member => insertMember member.1 member.2 sorted)
      sorted) = [(key, value)] := by
  induction members generalizing sorted with
  | nil => exact (List.append_nil _).symm.trans once
  | cons member rest ih =>
    obtain ⟨other, held⟩ := member
    rw [List.foldl_cons]
    apply ih
    by_cases same : other = key
    · subst same
      rw [membersAt_cons_self] at once
      rcases List.append_eq_singleton_iff.1 once with ⟨absent, here⟩ | ⟨-, none⟩
      · obtain ⟨same, later⟩ := List.cons.inj here
        obtain rfl := (Prod.mk.inj same).2
        rw [later, List.append_nil]
        exact membersAt_insertMember_of_nil absent
      · contradiction
    · rw [membersAt_insertMember_of_ne same]
      rwa [membersAt_cons_of_ne same] at once

theorem only?_sortMembers (only : only? members key = some value) :
    only? (sortMembers members) key = some value := by
  rw [only?_eq_some_iff] at only ⊢
  exact membersAt_foldl_insertMember only

theorem only?_of_settleMembers? {kept : List (String × Json)}
    (settles : settleMembers? room members = some kept) (only : only? members key = some value) :
    ∃ value', settle? room value = some value' ∧
      only? (sortMembers kept) key = some value' := by
  rw [settleMembers?_eq_mapM, mapM_eq_some_iff] at settles
  have single : List.Forall₂
      (fun member result => (settle? room member.2).map (member.1, ·) = some result)
      (membersAt key members) (membersAt key kept) := by
    refine List.rel_filter (fun member result related => ?_) settles
    obtain ⟨value', -, rfl⟩ := Option.map_eq_some_iff.1 related
    exact Iff.rfl
  rw [only?_eq_some_iff.1 only, List.forall₂_cons_left_iff] at single
  obtain ⟨result, rest, related, none, isKept⟩ := single
  obtain ⟨value', settlesHere, rfl⟩ := Option.map_eq_some_iff.1 related
  rw [List.forall₂_nil_left_iff.1 none] at isKept
  exact ⟨value', settlesHere, only?_sortMembers (only?_eq_some_iff.2 isKept)⟩

theorem fields?_of_settle? {json settled : Json} {keys : List String} {values : List Json}
    (read : json.fields? keys = some values) (settles : settle? room json = some settled) :
    ∃ inner values', settled.fields? keys = some values' ∧
      List.Forall₂ (fun value value' => settle? inner value = some value') values values' := by
  cases json with
  | object members =>
    rw [settle?] at settles
    split at settles
    · contradiction
    · obtain ⟨kept, settlesMembers, rfl⟩ := Option.map_eq_some_iff.1 settles
      rw [fields?, mapM_eq_some_iff] at read
      refine ⟨room - 1, ?_⟩
      simp only [fields?, mapM_eq_some_iff]
      induction read with
      | nil => exact ⟨[], .nil, .nil⟩
      | cons only _ ih =>
        obtain ⟨value', settlesHere, here⟩ := only?_of_settleMembers? settlesMembers only
        obtain ⟨values', later, settlesLater⟩ := ih
        exact ⟨value' :: values', .cons here later, .cons settlesHere settlesLater⟩
  | array items =>
    rw [settle?] at settles
    split at settles
    · contradiction
    · obtain ⟨kept, settlesItems, rfl⟩ := Option.map_eq_some_iff.1 settles
      rw [settleItems?_eq_mapM, mapM_eq_some_iff] at settlesItems
      rw [fields?] at read
      split at read
      · next length =>
        obtain rfl := Option.some.inj read
        refine ⟨room - 1, kept, ?_, settlesItems⟩
        rw [fields?, if_pos (settlesItems.length_eq.symm.trans length)]
      · contradiction
  | _ => contradiction

end Settling

end Json

end AnnotatedSource
