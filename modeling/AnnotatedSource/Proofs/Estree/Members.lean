import AnnotatedSource.Estree
import Mathlib.Data.List.Forall2

/-!
What an object says of its node.  The shape of an object is read from its type, its range and its
location, from the nodes that stand in its members, alone or in arrays, and from the number of
nulls beside them; nothing else in the object has a part in it.
-/

set_option autoImplicit false
set_option relaxedAutoImplicit false

namespace AnnotatedSource.Estree

/-- The members under the keys that may hold children. -/
def childMembers (members : List (String × Json)) : List (String × Json) :=
  members.filter fun member => !otherKeys.contains member.1

def node? : Json → Option (List (String × Json))
  | .object members => if (type? members).isSome then some members else none
  | _ => none

/-- The nodes that a value is or has for items. -/
def nodesIn : Json → List (List (String × Json))
  | .array items => items.filterMap node?
  | value => (node? value).toList

def childNodes (members : List (String × Json)) : List (List (String × Json)) :=
  (childMembers members).flatMap fun member => nodesIn member.2

/-- The members that say what a node is by itself. -/
def ownMembers (kind : NodeKind) (span : Span) (loc : Location) : List (String × Json) :=
  [("type", kind.toJson), ("range", span.toJson), ("loc", loc.toJson)]

def nodeShape (members : List (String × Json)) : Except LoadError Shape := shape (.object members)

theorem mapM_eq_ok_iff {α β ε : Type} {f : α → Except ε β} {items : List α} {results : List β} :
    items.mapM f = .ok results ↔
      List.Forall₂ (fun item result => f item = .ok result) items results := by
  induction items generalizing results with
  | nil =>
    rw [List.mapM_nil, List.forall₂_nil_left_iff]
    exact ⟨fun h => (Except.ok.inj h).symm, fun h => congrArg Except.ok h.symm⟩
  | cons item rest ih =>
    rw [List.mapM_cons, List.forall₂_cons_left_iff]
    cases here : f item with
    | error cause => simp [bind, Except.bind]
    | ok result =>
      cases later : rest.mapM f with
      | error cause => simp [bind, Except.bind, ← ih, later]
      | ok others => simp [bind, Except.bind, pure, Except.pure, ← ih, later, eq_comm]

theorem node?_eq_some_iff {value : Json} {members : List (String × Json)} :
    node? value = some members ↔ value = .object members ∧ isNode value = true := by
  cases value with
  | object others =>
    by_cases typed : (type? others).isSome = true
    · simp [node?, isNode, typed]
    · simp [node?, isNode, typed]
  | _ => simp [node?]

theorem node?_eq_none_iff {value : Json} : node? value = none ↔ isNode value = false := by
  cases value with
  | object members => simp [node?, isNode]
  | _ => simp [node?, isNode]

private theorem bind_shapeIfNode (value : Json)
    (next : List Shape → Except LoadError (List Shape)) :
    (if isNode value then (shape value).map ([·]) >>= next else .ok [] >>= next) =
      (node? value).toList.mapM nodeShape >>= next := by
  cases found : node? value with
  | none =>
    rw [node?_eq_none_iff.1 found]
    rfl
  | some members =>
    obtain ⟨rfl, isNode⟩ := node?_eq_some_iff.1 found
    rw [if_pos isNode, Option.toList_some, List.mapM_cons, List.mapM_nil, nodeShape]
    cases shape (.object members) <;> rfl

theorem shapesInItems_eq_mapM (items : List Json) :
    shapesInItems items = (items.filterMap node?).mapM nodeShape := by
  induction items with
  | nil =>
    rw [shapesInItems]
    rfl
  | cons item rest ih =>
    have split : (item :: rest).filterMap node? =
        (node? item).toList ++ rest.filterMap node? := by
      rw [List.filterMap_cons]
      cases node? item <;> rfl
    rw [shapesInItems, bind_shapeIfNode, ih, split, List.mapM_append]

theorem childNodes_cons (key : String) (value : Json) (rest : List (String × Json)) :
    childNodes ((key, value) :: rest) =
      (if otherKeys.contains key then [] else nodesIn value) ++ childNodes rest := by
  unfold childNodes childMembers
  rw [List.filter_cons]
  cases otherKeys.contains key with
  | true => rfl
  | false => exact List.flatMap_cons

theorem shapesInMembers_eq_mapM (members : List (String × Json)) :
    shapesInMembers members = (childNodes members).mapM nodeShape := by
  induction members with
  | nil =>
    rw [shapesInMembers]
    rfl
  | cons member rest ih =>
    obtain ⟨key, value⟩ := member
    rw [childNodes_cons, List.mapM_append, ← ih]
    cases value with
    | array items =>
      rw [shapesInMembers]
      cases otherKeys.contains key with
      | true => rfl
      | false =>
        rw [shapesInItems_eq_mapM]
        rfl
    | _ =>
      rw [shapesInMembers]
      · cases otherKeys.contains key with
        | true => rfl
        | false =>
          rw [if_neg Bool.false_ne_true, if_neg Bool.false_ne_true]
          exact bind_shapeIfNode _ _
      · simp

theorem holes_childMembers (members : List (String × Json)) :
    holes (childMembers members) = holes members := by
  induction members with
  | nil => rfl
  | cons member rest ih =>
    obtain ⟨key, value⟩ := member
    unfold childMembers at ih ⊢
    rw [List.filter_cons, holes]
    cases other : otherKeys.contains key with
    | true => exact ih.trans (Nat.zero_add _).symm
    | false =>
      change holes ((key, value) :: rest.filter _) = _
      rw [holes, ih, other]

theorem nodeShape_eq_ok_iff {members : List (String × Json)} {result : Shape} :
    nodeShape members = .ok result ↔
      ∃ nodeKind nodeSpan loc children,
        kind members = .ok nodeKind ∧ span members = .ok nodeSpan ∧
        location members = .ok loc ∧
        List.Forall₂ (fun child childShape => nodeShape child = .ok childShape)
          (childNodes members) children ∧
        result = .node nodeKind nodeSpan loc (holes members) (sortByStart children) := by
  rw [nodeShape, shape, shapesInMembers_eq_mapM]
  simp only [← mapM_eq_ok_iff]
  cases kind members with
  | error cause => simp [bind, Except.bind]
  | ok nodeKind =>
    cases span members with
    | error cause => simp [bind, Except.bind]
    | ok nodeSpan =>
      cases location members with
      | error cause => simp [bind, Except.bind]
      | ok loc =>
        cases (childNodes members).mapM nodeShape with
        | error cause => simp [bind, Except.bind]
        | ok children => simp [bind, Except.bind, pure, Except.pure, eq_comm]

end AnnotatedSource.Estree
