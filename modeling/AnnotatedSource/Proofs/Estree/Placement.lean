import AnnotatedSource.Proofs.Estree.Fields
import AnnotatedSource.Proofs.Estree.Occurrences
import AnnotatedSource.Proofs.StableOrder
import AnnotatedSource.Proofs.Tree.Pruning
import Mathlib.Data.Set.Card

/-!
Which node of a program each node of its tree stands for.  The children of a node stand for the
nodes that its object holds, put in order of where they start; where starts agree they stay in the
order they are visited.  So every occurrence of a node in a program has one node of the tree, and
the tree has no others.
-/

set_option autoImplicit false
set_option relaxedAutoImplicit false

namespace AnnotatedSource

theorem forall₂_mergeSort {α β : Type} {relates : α → β → Prop} {le : α → α → Bool}
    {le' : β → β → Bool} {items : List α} {others : List β}
    (related : List.Forall₂ relates items others)
    (agree : ∀ left right left' right', relates left left' → relates right right' →
      le left right = le' left' right') :
    List.Forall₂ relates (items.mergeSort le) (others.mergeSort le') := by
  obtain ⟨length, each⟩ := List.forall₂_iff_zip.1 related
  have firsts : (items.zip others).map Prod.fst = items := List.map_fst_zip length.le
  have seconds : (items.zip others).map Prod.snd = others := List.map_snd_zip length.ge
  -- Both lists are projections of the list of pairs, which is sorted once.
  let pairLE (left right : α × β) : Bool := le left.1 right.1
  have sortFirst : ((items.zip others).mergeSort pairLE).map Prod.fst = items.mergeSort le := by
    rw [List.map_mergeSort (s := le) fun _ _ _ _ => rfl, firsts]
  have sortSecond : ((items.zip others).mergeSort pairLE).map Prod.snd = others.mergeSort le' := by
    rw [List.map_mergeSort (s := le') fun left hleft right hright =>
      agree _ _ _ _ (each hleft) (each hright), seconds]
  rw [← sortFirst, ← sortSecond, List.forall₂_map_left_iff, List.forall₂_map_right_iff,
    List.forall₂_same]
  intro pair among
  exact each (List.mem_mergeSort.1 among)

namespace Estree

/-- The span of an object, or an empty one if it has none. -/
def spanOf (members : List (String × Json)) : Span :=
  match span members with
  | .ok nodeSpan => nodeSpan
  | .error _ => .ofWidth 0 0

/-- The nodes of an object in order of where they start, with the steps to them. -/
def arrange (members : List (String × Json)) : List (Step × List (String × Json)) :=
  (childOccurrences members).mergeSort (Span.startsBy fun found => spanOf found.2)

def Occurrence.child (outer : Occurrence) (found : Step × List (String × Json)) : Occurrence :=
  ⟨outer.address ++ [found.1], found.2⟩

/-- What a node of a tree stands for: the root for the program, and a child for the node that has
its place among the nodes of the object above. -/
def placeOf (program : List (String × Json)) (tree : Tree) (id : tree.Id) : Occurrence :=
  match h : tree.parent? id with
  | none => ⟨[], program⟩
  | some above =>
    have : above < id := Tree.parent_lt h
    let outer := placeOf program tree above
    -- Where the object above has the shape of its node, it holds as many nodes as that has children.
    match (arrange outer.node)[(tree.children above).idxOf id]? with
    | some found => outer.child found
    | none => outer
termination_by id.val

theorem mem_arrange_iff {members child : List (String × Json)} {step : Step} :
    (step, child) ∈ arrange members ↔ Holds members step child := by
  rw [arrange, List.mem_mergeSort, mem_childOccurrences_iff]

theorem pairwise_arrange {members : List (String × Json)} (ascend : Json.KeysAscend members) :
    (arrange members).Pairwise fun left right =>
      (spanOf left.2).start ≤ (spanOf right.2).start ∧
        ((spanOf left.2).start = (spanOf right.2).start → left.1.Before right.1) :=
  (Span.stablyOrders_mergeSort _ _).pairwise (pairwise_childOccurrences ascend)

theorem nodup_steps_arrange {members : List (String × Json)} (ascend : Json.KeysAscend members) :
    ((arrange members).map Prod.fst).Nodup := by
  rw [arrange, ((List.mergeSort_perm _ _).map Prod.fst).nodup_iff]
  exact List.pairwise_map.2 ((pairwise_childOccurrences ascend).imp Step.Before.ne)

theorem spanOf_eq {members : List (String × Json)} {result : Shape}
    (read : nodeShape members = .ok result) : spanOf members = result.span := by
  obtain ⟨_, _, _, _, _, isSpan, _, _, rfl⟩ := nodeShape_eq_ok_iff.1 read
  rw [spanOf, isSpan]
  rfl

theorem own_of_nodeShape {tree : Tree} {id : tree.Id} {members : List (String × Json)}
    (read : nodeShape members = .ok (tree.shapeAt id)) :
    kind members = .ok (tree.node id).kind ∧ span members = .ok (tree.node id).span ∧
      location members = .ok (tree.node id).loc ∧ (tree.node id).holes = holes members := by
  obtain ⟨_, _, _, _, isKind, isSpan, isLocation, -, same⟩ := nodeShape_eq_ok_iff.1 read
  rw [Tree.shapeAt_eq] at same
  obtain ⟨rfl, rfl, rfl, sameHoles, -⟩ := Shape.node.inj same
  exact ⟨isKind, isSpan, isLocation, sameHoles⟩

theorem forall₂_children_arrange {tree : Tree} {id : tree.Id} {members : List (String × Json)}
    (read : nodeShape members = .ok (tree.shapeAt id)) :
    List.Forall₂ (fun child found => nodeShape found.2 = .ok (tree.shapeAt child))
      (tree.children id) (arrange members) := by
  obtain ⟨_, _, _, shapes, _, _, _, children, same⟩ := nodeShape_eq_ok_iff.1 read
  rw [Tree.shapeAt_eq] at same
  obtain ⟨-, -, -, -, sorted⟩ := Shape.node.inj same
  rw [← map_snd_childOccurrences, List.forall₂_map_left_iff] at children
  have arranged : List.Forall₂ (fun found childShape => nodeShape found.2 = .ok childShape)
      (arrange members) (sortByStart shapes) := by
    refine forall₂_mergeSort children ?_
    intro left right leftShape rightShape readLeft readRight
    rw [Span.startsBy, spanOf_eq readLeft, spanOf_eq readRight]
  rw [← sorted, List.forall₂_map_right_iff] at arranged
  exact arranged.flip

/-- Two nodes held by one object, of which the first is visited first. -/
def VisitedBefore (first second : Occurrence) : Prop :=
  ∃ around left right, first.address = around ++ [left] ∧ second.address = around ++ [right] ∧
    left.Before right

section Placed

variable {program : List (String × Json)} {tree : Tree}

theorem placeOf_of_none {id : tree.Id} (h : tree.parent? id = none) :
    placeOf program tree id = ⟨[], program⟩ := by
  rw [placeOf]
  split
  · rfl
  · next found => rw [h] at found; contradiction

variable (built : tree.Built)
include built

theorem map_placeOf_children {id : tree.Id}
    (length : (tree.children id).length = (arrange (placeOf program tree id).node).length) :
    (tree.children id).map (placeOf program tree) =
      (arrange (placeOf program tree id).node).map (placeOf program tree id).child := by
  refine List.ext_getElem (by simpa using length) fun index inChildren inArranged => ?_
  rw [List.length_map] at inChildren inArranged
  rw [List.getElem_map, List.getElem_map, placeOf]
  have isParent := built.mem_children_iff.1 (List.getElem_mem inChildren)
  have nodup : (tree.children id).Nodup := (built.pairwise_children id).imp fun order => order.ne
  split
  · next none => rw [isParent] at none; contradiction
  · next above found =>
    obtain rfl := Option.some.inj (isParent.symm.trans found)
    simp only [nodup.idxOf_getElem, List.getElem?_eq_getElem inArranged]

variable (read : nodeShape program = .ok tree.shape)
include read

theorem nodeShape_placeOf (id : tree.Id) :
    nodeShape (placeOf program tree id).node = .ok (tree.shapeAt id) := by
  induction id using Tree.parent_induction with
  | top id none =>
    rw [placeOf_of_none none, built.eq_root_of_parent? none]
    exact read
  | below id above isParent ih =>
    have children := forall₂_children_arrange ih
    have same := map_placeOf_children built children.length_eq
    have shapes : List.Forall₂
        (fun child (placed : Occurrence) => nodeShape placed.node = .ok (tree.shapeAt child))
        (tree.children above) ((tree.children above).map (placeOf program tree)) := by
      rw [same, List.forall₂_map_right_iff]
      exact children
    rw [List.forall₂_map_right_iff, List.forall₂_same] at shapes
    exact shapes id (built.mem_children_iff.2 isParent)

theorem map_placeOf (id : tree.Id) :
    (tree.children id).map (placeOf program tree) =
      (arrange (placeOf program tree id).node).map (placeOf program tree id).child :=
  map_placeOf_children built (forall₂_children_arrange (nodeShape_placeOf built read id)).length_eq

theorem exists_child_of_parent? {id above : tree.Id} (isParent : tree.parent? id = some above) :
    ∃ found ∈ arrange (placeOf program tree above).node,
      (placeOf program tree above).child found = placeOf program tree id := by
  rw [← List.mem_map, ← map_placeOf built read]
  exact List.mem_map_of_mem (built.mem_children_iff.2 isParent)

theorem exists_address_eq {id above : tree.Id} (isParent : tree.parent? id = some above) :
    ∃ step, (placeOf program tree id).address =
      (placeOf program tree above).address ++ [step] := by
  obtain ⟨found, -, isPlace⟩ := exists_child_of_parent? built read isParent
  rw [← isPlace]
  exact ⟨found.1, rfl⟩

theorem exists_parent?_of_address {id : tree.Id} {around : List Step} {step : Step}
    (isAddress : (placeOf program tree id).address = around ++ [step]) :
    ∃ above, tree.parent? id = some above ∧ (placeOf program tree above).address = around := by
  cases parent : tree.parent? id with
  | none =>
    rw [placeOf_of_none parent] at isAddress
    exact absurd isAddress.symm (List.append_ne_nil_of_right_ne_nil _ (List.cons_ne_nil _ _))
  | some above =>
    obtain ⟨last, isLast⟩ := exists_address_eq built read parent
    rw [isLast] at isAddress
    exact ⟨above, rfl, (List.append_inj' isAddress rfl).1⟩

theorem occurs_placeOf (id : tree.Id) : Occurs program (placeOf program tree id) := by
  induction id using Tree.parent_induction with
  | top id none =>
    rw [placeOf_of_none none]
    exact .top
  | below id above isParent ih =>
    obtain ⟨⟨step, child⟩, held, same⟩ := exists_child_of_parent? built read isParent
    rw [← same]
    exact ih.within (mem_arrange_iff.1 held)

theorem exists_placeOf_eq {occurrence : Occurrence} (occurs : Occurs program occurrence) :
    ∃ id, placeOf program tree id = occurrence := by
  induction occurs with
  | top => exact ⟨tree.root, placeOf_of_none tree.parent?_root⟩
  | @within outer step child _ holds ih =>
    obtain ⟨above, rfl⟩ := ih
    have held : (placeOf program tree above).child (step, child) ∈
        (tree.children above).map (placeOf program tree) := by
      rw [map_placeOf built read]
      exact List.mem_map_of_mem (mem_arrange_iff.2 holds)
    obtain ⟨id, -, same⟩ := List.mem_map.1 held
    exact ⟨id, same⟩

variable (ordered : Json.InKeyOrder (.object program))
include ordered

theorem keysAscend_placeOf (id : tree.Id) : Json.KeysAscend (placeOf program tree id).node := by
  cases (occurs_placeOf built read id).inKeyOrder ordered with
  | object ascend _ => exact ascend

theorem pairwise_placeOf_children (id : tree.Id) :
    (tree.children id).Pairwise fun left right =>
      (tree.node left).span.start ≤ (tree.node right).span.start ∧
        ((tree.node left).span.start = (tree.node right).span.start →
          VisitedBefore (placeOf program tree left) (placeOf program tree right)) := by
  have start (child : tree.Id) :
      (spanOf (placeOf program tree child).node).start = (tree.node child).span.start := by
    rw [spanOf_eq (nodeShape_placeOf built read child), Tree.shapeAt_eq]
    rfl
  have arranged := pairwise_arrange (keysAscend_placeOf built read ordered id)
  have placed : ((tree.children id).map (placeOf program tree)).Pairwise fun left right =>
      (spanOf left.node).start ≤ (spanOf right.node).start ∧
        ((spanOf left.node).start = (spanOf right.node).start → VisitedBefore left right) := by
    rw [map_placeOf built read, List.pairwise_map]
    refine arranged.imp fun {left right} order => ⟨order.1, fun same => ?_⟩
    exact ⟨_, _, _, rfl, rfl, order.2 same⟩
  rw [List.pairwise_map] at placed
  simpa only [start] using placed

theorem nodup_addresses (id : tree.Id) :
    ((tree.children id).map fun child => (placeOf program tree child).address).Nodup := by
  have steps := nodup_steps_arrange (keysAscend_placeOf built read ordered id)
  have appended : Function.Injective fun step => (placeOf program tree id).address ++ [step] := by
    intro left right same
    exact List.singleton_inj.1 (List.append_cancel_left same)
  have same : (tree.children id).map (fun child => (placeOf program tree child).address) =
      ((arrange (placeOf program tree id).node).map Prod.fst).map
        fun step => (placeOf program tree id).address ++ [step] := by
    have placed := congrArg (List.map Occurrence.address) (map_placeOf built read id)
    rw [List.map_map, List.map_map] at placed
    rw [List.map_map]
    exact placed
  rw [same]
  exact steps.map appended

theorem eq_of_address_eq {first second : tree.Id}
    (same : (placeOf program tree first).address = (placeOf program tree second).address) :
    first = second := by
  induction first using Tree.parent_induction generalizing second with
  | top first none =>
    cases parent : tree.parent? second with
    | none => rw [built.eq_root_of_parent? none, built.eq_root_of_parent? parent]
    | some above =>
      obtain ⟨step, isAddress⟩ := exists_address_eq built read parent
      rw [placeOf_of_none none, isAddress] at same
      exact absurd same.symm (List.append_ne_nil_of_right_ne_nil _ (List.cons_ne_nil _ _))
  | below first above isParent ih =>
    obtain ⟨step, isAddress⟩ := exists_address_eq built read isParent
    obtain ⟨other, otherParent, around⟩ :=
      exists_parent?_of_address built read (same.symm.trans isAddress)
    obtain rfl := ih around.symm
    exact List.inj_on_of_nodup_map (nodup_addresses built read ordered above)
      (built.mem_children_iff.2 isParent) (built.mem_children_iff.2 otherParent) same

end Placed

/-- The items of the arrays that stand under the keys that may hold children. -/
def arrayItems (members : List (String × Json)) : List Json :=
  (childMembers members).flatMap fun member =>
    match member.2 with
    | .array items => items
    | _ => []

theorem holes_eq_countP (members : List (String × Json)) :
    holes members = (arrayItems members).countP Json.isNull := by
  induction members with
  | nil => rfl
  | cons member rest ih =>
    obtain ⟨key, value⟩ := member
    unfold arrayItems childMembers at ih ⊢
    rw [holes, List.filter_cons, ih]
    cases otherKeys.contains key with
    | true => exact Nat.zero_add _
    | false =>
      change _ = (List.flatMap _ ((key, value) :: _)).countP Json.isNull
      rw [List.flatMap_cons, List.countP_append]
      cases value <;> rfl

/-- The nodes of a tree stand for the nodes that occur in a program, one for each, with all that
these say of themselves, below one another as these are. -/
structure Placement (program : List (String × Json)) (tree : Tree)
    (place : tree.Id → Occurrence) : Prop where
  occurs_iff : ∀ occurrence, Occurs program occurrence ↔ ∃ id, place id = occurrence
  injective : Function.Injective fun id => (place id).address
  kind : ∀ id, (place id).node.lookup "type" = some (.string (tree.node id).kind.name)
  span : ∀ id, ∃ value, (place id).node.lookup "range" = some value ∧
    value.ends? = some ((tree.node id).span.start, (tree.node id).span.stop)
  loc : ∀ id, ∃ value, (place id).node.lookup "loc" = some value ∧
    Location.ofJson? value = some (tree.node id).loc
  holes : ∀ id, (tree.node id).holes = (arrayItems (place id).node).countP Json.isNull
  parent : ∀ id above, tree.parent? id = some above ↔
    ∃ step, (place id).address = (place above).address ++ [step]
  children : ∀ id, (tree.children id).Pairwise fun left right =>
    (tree.node left).span.start ≤ (tree.node right).span.start ∧
      ((tree.node left).span.start = (tree.node right).span.start →
        VisitedBefore (place left) (place right))

theorem placement_placeOf {program : List (String × Json)} {tree : Tree} (built : tree.Built)
    (read : nodeShape program = .ok tree.shape) (ordered : Json.InKeyOrder (.object program)) :
    Placement program tree (placeOf program tree) := by
  have own (id : tree.Id) := own_of_nodeShape (nodeShape_placeOf built read id)
  constructor
  case occurs_iff =>
    intro occurrence
    constructor
    · exact exists_placeOf_eq built read
    · rintro ⟨id, rfl⟩
      exact occurs_placeOf built read id
  case injective =>
    intro first second same
    exact eq_of_address_eq built read ordered same
  case kind => exact fun id => kind_eq_ok_iff.1 (own id).1
  case span => exact fun id => span_eq_ok_iff.1 (own id).2.1
  case loc => exact fun id => location_eq_ok_iff.1 (own id).2.2.1
  case holes => exact fun id => (own id).2.2.2.trans (holes_eq_countP _)
  case parent =>
    intro id above
    constructor
    · exact exists_address_eq built read
    · rintro ⟨step, isAddress⟩
      obtain ⟨other, isParent, around⟩ := exists_parent?_of_address built read isAddress
      rw [isParent, eq_of_address_eq built read ordered around]
  case children => exact pairwise_placeOf_children built read ordered

theorem exists_of_bind_eq_ok {α β : Type} {result : Except LoadError α}
    {next : α → Except LoadError β} {value : β} (h : result >>= next = .ok value) :
    ∃ first, result = .ok first ∧ next first = .ok value := by
  cases result with
  | error cause => contradiction
  | ok first => exact ⟨first, rfl, h⟩

theorem nodeShape_of_load {raw : List Char} {program : List (String × Json)} {source : Source}
    (loaded : load raw program = .ok source) :
    source.tree.Built ∧ nodeShape program = .ok source.tree.shape := by
  rw [load] at loaded
  obtain ⟨tokens, -, loaded⟩ := exists_of_bind_eq_ok loaded
  obtain ⟨comments, -, loaded⟩ := exists_of_bind_eq_ok loaded
  obtain ⟨_, -, loaded⟩ := exists_of_bind_eq_ok loaded
  obtain ⟨_, -, loaded⟩ := exists_of_bind_eq_ok loaded
  obtain ⟨shape, read, made⟩ := exists_of_bind_eq_ok loaded
  have isTree : source.tree = shape.toTree := by
    obtain rfl := Except.ok.inj made
    rfl
  rw [isTree, Shape.shape_of_build_steps shape.build_toTree]
  exact ⟨shape.built_toTree, read⟩

/-- The nodes of a loaded tree and the nodes that occur in its program stand for one another, one
for one.  So the tree has as many nodes as occur in the program, and its indices number them as they
are walked from the top. -/
theorem exists_placement_of_loadText (raw json : List Char) (program : List (String × Json))
    (source : Source) (holds : program? json = some program)
    (loaded : loadText raw json = .ok source) :
    (∃ place, Placement program source.tree place) ∧
    {occurrence | Occurs program occurrence}.ncard = source.tree.size ∧
    Tree.entered source.tree.walk.events = source.tree.ids := by
  rw [loadText_of_program holds] at loaded
  obtain ⟨built, read⟩ := nodeShape_of_load loaded
  have placement := placement_placeOf built read (inKeyOrder_of_program? holds)
  refine ⟨⟨_, placement⟩, ?_, built.entered_events⟩
  have range : {occurrence | Occurs program occurrence} =
      Set.range (placeOf program source.tree) := Set.ext placement.occurs_iff
  rw [range, Set.ncard_range_of_injective, Nat.card_fin]
  · rfl
  · intro first second same
    exact placement.injective (congrArg Occurrence.address same)

/-- A program with a hole and two nodes that start together, of which the one under the later key is
written first. -/
def togetherText : List Char :=
  ("\x7b\"type\":\"Program\",\"range\":[0,9],\"loc\":[[1,0],[1,9]]," ++
    "\"tokens\":[],\"comments\":[]," ++
    "\"to\":[null,\x7b\"type\":\"Super\",\"range\":[1,2],\"loc\":[[1,1],[1,2]]\x7d]," ++
    "\"as\":\x7b\"type\":\"Literal\",\"range\":[1,3],\"loc\":[[1,1],[1,3]]\x7d\x7d").toList

theorem exists_placement_of_loadText_together :
    ∃ program source place, program? togetherText = some program ∧
      loadText [] togetherText = .ok source ∧ Placement program source.tree place ∧
      (childOccurrences program).map Prod.fst = [⟨"as", none⟩, ⟨"to", some 1⟩] ∧
      ∃ id, (place id).address = [] ∧ (source.tree.node id).holes = 1 := by
  have read : (program? togetherText).any (fun program => programFailure? program = none ∧
      (childOccurrences program).map Prod.fst = [⟨"as", none⟩, ⟨"to", some 1⟩] ∧
        (arrayItems program).countP Json.isNull = 1) = true := by
    decide +kernel
  obtain ⟨program, holds, found⟩ := (Option.any_eq_true _ _).1 read
  obtain ⟨sound, visited, nulls⟩ := of_decide_eq_true found
  obtain ⟨source, loaded⟩ := failure?_eq_none_iff.1 ((failure?_load [] program).trans sound)
  rw [← loadText_of_program holds] at loaded
  obtain ⟨⟨place, placement⟩, -⟩ :=
    exists_placement_of_loadText [] togetherText program source holds loaded
  obtain ⟨id, isTop⟩ := (placement.occurs_iff _).1 .top
  refine ⟨program, source, place, holds, loaded, placement, visited, id, ?_, ?_⟩
  · rw [isTop]
  · rw [placement.holes, isTop, nulls]

end Estree

end AnnotatedSource
