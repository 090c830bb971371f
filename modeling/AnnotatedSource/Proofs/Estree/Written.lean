import AnnotatedSource.Proofs.Estree.Members
import AnnotatedSource.Proofs.Estree.Siblings
import AnnotatedSource.Proofs.Json.Forms
import AnnotatedSource.Proofs.Kind

/-!
Shapes written as objects.  A node is written with its type, its range, its location and one more
member, an array of its children and then of a null for each hole.  Such an object has the shape
that it is written from, provided that siblings are in the order of where they start.
-/

set_option autoImplicit false
set_option relaxedAutoImplicit false

namespace AnnotatedSource.Estree

/-- An array that ends with a null for each hole. -/
def arrayWithHoles (items : List Json) (holes : Nat) : Json :=
  .array (items ++ List.replicate holes .null)

mutual

/-- The members that a node is written with, where the children of a node stand under the key for
nodes of its kind. -/
def writtenMembers (key : NodeKind → String) : Shape → List (String × Json)
  | .node kind span loc holes children =>
    ownMembers kind span loc ++ [(key kind, arrayWithHoles (writtenItems key children) holes)]

def writtenItems (key : NodeKind → String) : List Shape → List Json
  | [] => []
  | shape :: rest => .object (writtenMembers key shape) :: writtenItems key rest

end

theorem writtenItems_eq_map (key : NodeKind → String) (shapes : List Shape) :
    writtenItems key shapes = shapes.map fun shape => .object (writtenMembers key shape) := by
  induction shapes with
  | nil => rfl
  | cons shape rest ih => rw [writtenItems, ih, List.map_cons]

mutual

theorem readable_writtenMembers (key : NodeKind → String) (shape : Shape) :
    Json.membersReadable (writtenMembers key shape) = true := by
  match shape with
  | .node kind span loc holes children =>
    have items := readable_writtenItems key children
    rw [Json.itemsReadable_eq_all] at items
    have nulls : (List.replicate holes Json.null).all Json.readable = true := by
      refine List.all_eq_true.2 fun value among => ?_
      rw [List.eq_of_mem_replicate among]
      rfl
    have array : (arrayWithHoles (writtenItems key children) holes).readable = true := by
      rw [arrayWithHoles, Json.readable, Json.itemsReadable_eq_all, List.all_append, items, nulls]
      rfl
    rw [writtenMembers, Json.membersReadable_eq_all, List.all_append, List.all_cons, array]
    rfl

theorem readable_writtenItems (key : NodeKind → String) (shapes : List Shape) :
    Json.itemsReadable (writtenItems key shapes) = true := by
  match shapes with
  | [] => rfl
  | shape :: rest =>
    exact Bool.and_eq_true_iff.2 ⟨readable_writtenMembers key shape, readable_writtenItems key rest⟩

end

section Settled

variable {members : List (String × Json)} (nodup : (members.map Prod.fst).Nodup)
include nodup

theorem decode_settledObject {α : Type} {ofJson? : Json → Option α} {key : String} {value : Json}
    {result : α} (mem : (key, value) ∈ members) (present : value.settled.isNull = false)
    (read : ofJson? value.settled = some result) :
    decode (Json.settledObject members) key ofJson? = .ok result := by
  have found : (Json.settledObject members).lookup key = some value.settled :=
    Json.lookup_settledObject nodup mem
  have held : field (Json.settledObject members) key = .ok value.settled := by
    rw [field, found]
    cases shown : value.settled with
    | null =>
      rw [shown] at present
      contradiction
    | _ => rfl
  simp only [decode, held, bind, Except.bind, read, pure, Except.pure]

theorem childMembers_settledObject {key : String} {value : Json}
    (only : childMembers members = [(key, value)]) :
    childMembers (Json.settledObject members) = [(key, value.settled)] := by
  have perm := (Json.perm_settledObject nodup).filter fun member => !otherKeys.contains member.1
  rw [List.filter_map] at perm
  change (childMembers (Json.settledObject members)).Perm ((childMembers members).map _) at perm
  rw [only] at perm
  exact List.perm_singleton.1 perm

variable {nodeKind : NodeKind} {nodeSpan : Span} {loc : Location}
  (own : ownMembers nodeKind nodeSpan loc ⊆ members)
include own

theorem type?_settledObject : type? (Json.settledObject members) = some nodeKind.name := by
  have mem : ("type", nodeKind.toJson) ∈ members := own List.mem_cons_self
  have found : (Json.settledObject members).lookup "type" = some nodeKind.toJson.settled :=
    Json.lookup_settledObject nodup mem
  rw [type?, found]
  rfl

theorem kind_settledObject : kind (Json.settledObject members) = .ok nodeKind := by
  simp only [kind, type?_settledObject nodup own, Option.getD_some, NodeKind.ofName?_name]

theorem span_settledObject : span (Json.settledObject members) = .ok nodeSpan := by
  have mem : ("range", nodeSpan.toJson) ∈ members :=
    own (List.mem_cons_of_mem _ List.mem_cons_self)
  simp only [span, decode_settledObject nodup mem rfl (Json.ends?_settled nodeSpan), bind,
    Except.bind, Span.ofEnds?_ends, pure, Except.pure]

theorem location_settledObject : location (Json.settledObject members) = .ok loc := by
  have mem : ("loc", loc.toJson) ∈ members :=
    own (List.mem_cons_of_mem _ (List.mem_cons_of_mem _ List.mem_cons_self))
  exact decode_settledObject nodup mem rfl (Location.ofJson?_settled loc)

end Settled

def ownKeys : List String := ["type", "range", "loc"]

/-- Members that may stand beside those that a node is written with.  Their keys are none of the
node's own, and no children are sought under them. -/
structure Accompanies (extra : List (String × Json)) : Prop where
  hidden : ∀ member ∈ extra, member.1 ∈ otherKeys
  nodup : (ownKeys ++ extra.map Prod.fst).Nodup

theorem accompanies_nil : Accompanies [] := ⟨by simp, by decide⟩

theorem accompanies_tokens (tokens comments : Json) :
    Accompanies [("tokens", tokens), ("comments", comments)] :=
  ⟨by simp [otherKeys], by simp [ownKeys]⟩

theorem settled_writtenItems (key : NodeKind → String) (children : List Shape) (holes : Nat) :
    (arrayWithHoles (writtenItems key children) holes).settled =
      arrayWithHoles
        (children.map fun child => .object (Json.settledObject (writtenMembers key child)))
        holes := by
  rw [arrayWithHoles, Json.settled, Json.settledItems_eq_map, writtenItems_eq_map,
    List.map_append, List.map_map, List.map_replicate]
  rfl

theorem holesIn_written (key : NodeKind → String) (children : List Shape) (holes : Nat) :
    holesIn (arrayWithHoles (writtenItems key children) holes).settled = holes := by
  have nodes : (children.map fun child =>
      Json.object (Json.settledObject (writtenMembers key child))).countP Json.isNull = 0 := by
    rw [List.countP_map]
    exact List.countP_eq_zero.2 fun child _ => Bool.false_ne_true
  rw [settled_writtenItems, arrayWithHoles, holesIn, List.countP_append, nodes,
    List.countP_replicate]
  exact Nat.zero_add holes

section Ordinary

variable {key : NodeKind → String} (ordinary : ∀ kind, key kind ∉ otherKeys)
  {extra : List (String × Json)}
include ordinary

theorem nodup_keys_written (accompanies : Accompanies extra) (shape : Shape) :
    ((writtenMembers key shape ++ extra).map Prod.fst).Nodup := by
  cases shape with
  | node kind span loc holes children =>
    have keys : (writtenMembers key (.node kind span loc holes children) ++ extra).map Prod.fst =
        ownKeys ++ key kind :: extra.map Prod.fst := by
      rw [writtenMembers, List.append_assoc, List.map_append]
      rfl
    rw [keys, List.perm_middle.nodup_iff, List.nodup_cons]
    refine ⟨?_, accompanies.nodup⟩
    intro among
    rcases List.mem_append.1 among with own | beside
    · have hidden : ownKeys ⊆ otherKeys := by decide
      exact ordinary kind (hidden own)
    · obtain ⟨member, inExtra, same⟩ := List.mem_map.1 beside
      exact ordinary kind (same ▸ accompanies.hidden member inExtra)

theorem isNode_written (shape : Shape) :
    isNode (.object (Json.settledObject (writtenMembers key shape))) = true := by
  have nodup := nodup_keys_written ordinary accompanies_nil shape
  rw [List.append_nil] at nodup
  cases shape with
  | node kind span loc holes children =>
    rw [writtenMembers] at nodup ⊢
    rw [isNode, type?_settledObject nodup (List.subset_append_left _ _)]
    rfl

theorem nodesIn_written (children : List Shape) (holes : Nat) :
    nodesIn (arrayWithHoles (writtenItems key children) holes).settled =
      children.map fun child => Json.settledObject (writtenMembers key child) := by
  have nodes (child : Shape) :
      node? (.object (Json.settledObject (writtenMembers key child))) =
        some (Json.settledObject (writtenMembers key child)) :=
    node?_eq_some_iff.2 ⟨rfl, isNode_written ordinary child⟩
  rw [settled_writtenItems, arrayWithHoles, nodesIn, List.filterMap_append, List.filterMap_map,
    List.filterMap_replicate_of_none rfl, List.append_nil]
  simp only [Function.comp_def, nodes, List.filterMap_eq_map']

theorem childMembers_written (accompanies : Accompanies extra) {kind : NodeKind} {span : Span}
    {loc : Location} {holes : Nat} {children : List Shape} :
    childMembers (writtenMembers key (.node kind span loc holes children) ++ extra) =
      [(key kind, arrayWithHoles (writtenItems key children) holes)] := by
  have own : childMembers (ownMembers kind span loc) = [] := rfl
  have searched : (!otherKeys.contains (key kind)) = true := by
    simp [ordinary kind]
  have beside : childMembers extra = [] := by
    refine List.filter_eq_nil_iff.2 fun member among => ?_
    simp [accompanies.hidden member among]
  rw [childMembers] at own beside ⊢
  rw [writtenMembers, List.filter_append, List.filter_append, own, beside, List.append_nil,
    List.nil_append]
  exact List.filter_cons_of_pos searched

theorem nodeShape_written {shape : Shape} (ordered : shape.Throughout InStartOrder)
    (accompanies : Accompanies extra) :
    nodeShape (Json.settledObject (writtenMembers key shape ++ extra)) = .ok shape := by
  induction ordered generalizing extra with
  | @node kind span loc count children here below ih =>
    have nodup := nodup_keys_written ordinary accompanies (.node kind span loc count children)
    have held := childMembers_settledObject nodup (childMembers_written ordinary accompanies)
    rw [writtenMembers, List.append_assoc] at nodup held ⊢
    have own := List.subset_append_left (ownMembers kind span loc)
      ([(key kind, arrayWithHoles (writtenItems key children) count)] ++ extra)
    have searched : ¬otherKeys.contains (key kind) = true := by
      simp [ordinary kind]
    refine nodeShape_eq_ok_iff.2 ⟨kind, span, loc, children, kind_settledObject nodup own,
      span_settledObject nodup own, location_settledObject nodup own, ?_, ?_⟩
    · rw [childNodes, held, List.flatMap_singleton, nodesIn_written ordinary]
      refine List.forall₂_map_left_iff.2 (List.forall₂_same.2 fun child among => ?_)
      -- Only the program has members beside a node's own; its children have none.
      have inner := ih child among accompanies_nil
      rwa [List.append_nil] at inner
    · rw [← holes_childMembers, held, holes, if_neg searched, holesIn_written,
        sortByStart_eq_self here]
      rfl

end Ordinary

end AnnotatedSource.Estree
