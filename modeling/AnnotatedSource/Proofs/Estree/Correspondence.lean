import AnnotatedSource.Proofs.Estree.Members
import AnnotatedSource.Proofs.Estree.Siblings
import Mathlib.Data.List.Perm.Basic

/-!
Objects that differ only in what no node is read from.  Two objects correspond when they say the
same of their nodes: the same type, range and location, equally many holes, and child nodes that
correspond in turn, whatever the order they stand in and the keys they stand under.  Where no two
siblings start together, corresponding objects have the same shape.
-/

set_option autoImplicit false
set_option relaxedAutoImplicit false

namespace AnnotatedSource.Estree

/-- Two objects that say the same of a node and of the nodes below it.  The child nodes of one
correspond to those of the other, rearranged. -/
inductive Corresponds : List (String × Json) → List (String × Json) → Prop
  | node {left right : List (String × Json)} {rearranged : List (List (String × Json))}
      (type : type? left = type? right) (range : span left = span right)
      (loc : location left = location right) (nulls : holes left = holes right)
      (perm : rearranged.Perm (childNodes right))
      (children : List.Forall₂ Corresponds (childNodes left) rearranged) :
      Corresponds left right

theorem forall₂_of_related {α β γ : Type} {relates : α → β → Prop} {gives : α → γ → Prop}
    {gives' : β → γ → Prop} {items : List α} {others : List β} {results : List γ}
    (related : List.Forall₂ relates items others) (given : List.Forall₂ gives items results)
    (step : ∀ result ∈ results, ∀ item other,
      relates item other → gives item result → gives' other result) :
    List.Forall₂ gives' others results := by
  induction related generalizing results with
  | nil =>
    cases given
    exact .nil
  | cons here _ ih =>
    cases given with
    | cons hereGiven restGiven =>
      refine .cons (step _ List.mem_cons_self _ _ here hereGiven) (ih restGiven ?_)
      exact fun result later => step result (List.mem_cons_of_mem _ later)

variable {left right members : List (String × Json)}

theorem nodeShape_eq_ok_node_iff {nodeKind : NodeKind} {nodeSpan : Span} {loc : Location}
    {count : Nat} {children : List Shape} (differ : StartsDiffer children) :
    nodeShape members = .ok (.node nodeKind nodeSpan loc count children) ↔
      kind members = .ok nodeKind ∧ span members = .ok nodeSpan ∧ location members = .ok loc ∧
      holes members = count ∧ InStartOrder children ∧
      ∃ found, List.Forall₂ (fun child childShape => nodeShape child = .ok childShape)
        (childNodes members) found ∧ found.Perm children := by
  rw [nodeShape_eq_ok_iff]
  constructor
  · rintro ⟨_, _, _, found, isKind, isSpan, isLocation, read, same⟩
    cases same
    exact ⟨isKind, isSpan, isLocation, rfl, inStartOrder_sortByStart found, found, read,
      (perm_sortByStart found).symm⟩
  · rintro ⟨isKind, isSpan, isLocation, rfl, ordered, found, read, perm⟩
    refine ⟨nodeKind, nodeSpan, loc, found, isKind, isSpan, isLocation, read, ?_⟩
    rw [← sortByStart_eq_of_perm differ perm.symm, sortByStart_eq_self ordered]

/-- Objects that correspond have the same shape, provided that no two siblings in it start at the
same offset; neither has a shape without the other. -/
theorem shape_eq_of_corresponds {result : Shape} (corresponds : Corresponds left right)
    (differ : result.Throughout StartsDiffer) :
    shape (.object left) = .ok result ↔ shape (.object right) = .ok result := by
  change nodeShape left = .ok result ↔ nodeShape right = .ok result
  induction differ generalizing left right with
  | @node _ _ _ _ shapes differ _ ih =>
    cases corresponds with
    | @node _ _ rearranged type range loc nulls perm children =>
      have sameKind : kind left = kind right := by rw [kind, kind, type]
      rw [nodeShape_eq_ok_node_iff differ, nodeShape_eq_ok_node_iff differ, sameKind, range, loc,
        nulls]
      -- The nodes are found in the rearranged order on the way from either side to the other.
      have found : (∃ found, List.Forall₂ (nodeShape · = .ok ·) (childNodes left) found ∧
            found.Perm shapes) ↔
          ∃ found, List.Forall₂ (nodeShape · = .ok ·) (childNodes right) found ∧
            found.Perm shapes := by
        constructor
        · rintro ⟨found, read, isShapes⟩
          have moved : List.Forall₂ (nodeShape · = .ok ·) rearranged found :=
            forall₂_of_related children read fun childShape inFound _ _ same =>
              (ih childShape (isShapes.mem_iff.1 inFound) same).1
          obtain ⟨found', read', isFound⟩ := List.perm_comp_forall₂ perm.symm moved
          exact ⟨found', read', isFound.trans isShapes⟩
        · rintro ⟨found, read, isShapes⟩
          obtain ⟨found', moved, isFound⟩ := List.perm_comp_forall₂ perm read
          have isShapes' := isFound.trans isShapes
          refine ⟨found', forall₂_of_related children.flip moved ?_, isShapes'⟩
          exact fun childShape inFound _ _ same =>
            (ih childShape (isShapes'.mem_iff.1 inFound) same).2
      rw [found]

def elementsTogether : List (String × Json) :=
  ownMembers .arrayExpression (.ofWidth 0 6) .zero ++
    [("elements", .array
      [.object (ownMembers .identifier (.ofWidth 1 1) .zero), .null,
        .object (ownMembers .identifier (.ofWidth 4 1) .zero)])]

/-- The same array with its elements under two keys, the last one first, among members that no node
is read from. -/
def elementsApart : List (String × Json) :=
  [("start", .ofCount 0),
    ("last", .object (ownMembers .identifier (.ofWidth 4 1) .zero)),
    ("parent", .object [("type", .string "Program")]),
    ("others", .array
      [.array [.null, .object [("type", .string "Literal")]], .null,
        .object (("name", .string "a") :: ownMembers .identifier (.ofWidth 1 1) .zero)]),
    ("extra", .object [("raw", .null)])] ++
    ownMembers .arrayExpression (.ofWidth 0 6) .zero

def elementsShape : Shape :=
  .node .arrayExpression (.ofWidth 0 6) .zero 1
    [.node .identifier (.ofWidth 1 1) .zero 0 [], .node .identifier (.ofWidth 4 1) .zero 0 []]

theorem shape_eq_of_corresponds_elements :
    Corresponds elementsTogether elementsApart ∧ elementsShape.Throughout StartsDiffer ∧
      shape (.object elementsTogether) = .ok elementsShape ∧
      shape (.object elementsApart) = .ok elementsShape := by
  have corresponds : Corresponds elementsTogether elementsApart := by
    have swap := List.reverse_perm (childNodes elementsApart)
    refine .node rfl rfl rfl rfl swap (.cons ?_ (.cons ?_ .nil))
    · exact .node rfl rfl rfl rfl .nil .nil
    · exact .node rfl rfl rfl rfl .nil .nil
  have leaf (span : Span) : (Shape.node .identifier span .zero 0 []).Throughout StartsDiffer :=
    .node List.nodup_nil (List.forall_mem_nil _)
  have differ : elementsShape.Throughout StartsDiffer := by
    refine .node (by decide) (List.forall_mem_cons.2 ⟨leaf _, ?_⟩)
    exact List.forall_mem_singleton.2 (leaf _)
  have none : StartsDiffer [] := List.nodup_nil
  have read : shape (.object elementsTogether) = .ok elementsShape := by
    refine (nodeShape_eq_ok_node_iff (by decide)).2
      ⟨rfl, rfl, rfl, rfl, by decide, _, .cons ?_ (.cons ?_ .nil), .refl _⟩
    · exact (nodeShape_eq_ok_node_iff none).2 ⟨rfl, rfl, rfl, rfl, by decide, [], .nil, .refl _⟩
    · exact (nodeShape_eq_ok_node_iff none).2 ⟨rfl, rfl, rfl, rfl, by decide, [], .nil, .refl _⟩
  exact ⟨corresponds, differ, read, (shape_eq_of_corresponds corresponds differ).1 read⟩

end AnnotatedSource.Estree
