import AnnotatedSource.Tree

/-!
Drafts of trees.  A draft is built from the root down in document order: a node is started below
the innermost node that is still open, and finished before the one around it.  A draft in which
every node is finished can be completed to a tree.
-/

set_option autoImplicit false
set_option relaxedAutoImplicit false

namespace AnnotatedSource

/-- A tree under construction, with its open nodes, the innermost first. -/
structure Draft where
  nodes : Array Node
  opened : List Nat
  linked : Linked nodes
  opened_lt : ∀ i ∈ opened, i < nodes.size

namespace Draft

def withChild (node : Node) (child : Nat) : Node :=
  { node with children := node.children.push child }

def withHoles (node : Node) (count : Nat) : Node :=
  { node with holes := node.holes + count }

/-- The array with a new node at its end, which its parent has for its last child. -/
def adopt (nodes : Array Node) (node : Node) : Array Node :=
  let parents :=
    match node.parent with
    | none => nodes
    | some parent => nodes.modify parent (withChild · nodes.size)
  parents.push node

theorem size_adopt (nodes : Array Node) (node : Node) :
    (adopt nodes node).size = nodes.size + 1 := by
  unfold adopt
  cases node.parent <;> simp

theorem getElem?_adopt (nodes : Array Node) (node : Node) (i : Nat) :
    (adopt nodes node)[i]? =
      if i = nodes.size then some node
      else if node.parent = some i then nodes[i]?.map (withChild · nodes.size)
      else nodes[i]? := by
  unfold adopt
  cases hparent : node.parent with
  | none => simp [Array.getElem?_push]
  | some parent =>
    simp only [Array.getElem?_push, Array.size_modify, Array.getElem?_modify, Option.some.injEq]

theorem linked_adopt {nodes : Array Node} {node : Node} (linked : Linked nodes)
    (childless : node.children = #[]) (parent_lt : ∀ p, node.parent = some p → p < nodes.size) :
    Linked (adopt nodes node) where
  parent_lt {i p found} hfound hp := by
    rw [getElem?_adopt] at hfound
    split at hfound
    · next hi =>
      cases hfound
      have := parent_lt p hp
      omega
    · split at hfound
      · obtain ⟨before, hbefore, rfl⟩ := Option.map_eq_some_iff.1 hfound
        exact linked.parent_lt hbefore hp
      · exact linked.parent_lt hfound hp
  child_gt {i c found} hfound hc := by
    rw [getElem?_adopt] at hfound
    split at hfound
    · cases hfound
      rw [childless] at hc
      exact absurd hc (Array.not_mem_empty c)
    · split at hfound
      · next hparent =>
        obtain ⟨before, hbefore, rfl⟩ := Option.map_eq_some_iff.1 hfound
        -- The only new child is the new node itself, which stands behind every other.
        rcases Array.mem_push.1 hc with hold | rfl
        · exact linked.child_gt hbefore hold
        · exact parent_lt i hparent
      · exact linked.child_gt hfound hc
  child_lt_size {i c found} hfound hc := by
    rw [size_adopt]
    rw [getElem?_adopt] at hfound
    split at hfound
    · cases hfound
      rw [childless] at hc
      exact absurd hc (Array.not_mem_empty c)
    · split at hfound
      · obtain ⟨before, hbefore, rfl⟩ := Option.map_eq_some_iff.1 hfound
        rcases Array.mem_push.1 hc with hold | rfl
        · exact Nat.lt_succ_of_lt (linked.child_lt_size hbefore hold)
        · exact Nat.lt_succ_self _
      · exact Nat.lt_succ_of_lt (linked.child_lt_size hfound hc)

theorem linked_withHoles {nodes : Array Node} (linked : Linked nodes) (place count : Nat) :
    Linked (nodes.modify place (withHoles · count)) where
  parent_lt {i p found} hfound hp := by
    rw [Array.getElem?_modify] at hfound
    split at hfound
    · obtain ⟨before, hbefore, rfl⟩ := Option.map_eq_some_iff.1 hfound
      exact linked.parent_lt hbefore hp
    · exact linked.parent_lt hfound hp
  child_gt {i c found} hfound hc := by
    rw [Array.getElem?_modify] at hfound
    split at hfound
    · obtain ⟨before, hbefore, rfl⟩ := Option.map_eq_some_iff.1 hfound
      exact linked.child_gt hbefore hc
    · exact linked.child_gt hfound hc
  child_lt_size {i c found} hfound hc := by
    rw [Array.size_modify]
    rw [Array.getElem?_modify] at hfound
    split at hfound
    · obtain ⟨before, hbefore, rfl⟩ := Option.map_eq_some_iff.1 hfound
      exact linked.child_lt_size hbefore hc
    · exact linked.child_lt_size hfound hc

def empty : Draft where
  nodes := #[]
  opened := []
  linked := ⟨by simp, by simp, by simp⟩
  opened_lt := by simp

/-- Add a node below the innermost open one and leave it open. -/
def push (draft : Draft) (kind : NodeKind) (span : Span) (loc : Location) : Draft where
  nodes := adopt draft.nodes ⟨kind, span, loc, draft.opened.head?, #[], 0⟩
  opened := draft.nodes.size :: draft.opened
  linked := linked_adopt draft.linked rfl fun p hp =>
    draft.opened_lt p (List.mem_of_mem_head? hp)
  opened_lt i hi := by
    rw [size_adopt]
    rcases List.mem_cons.1 hi with rfl | hopened
    · exact Nat.lt_succ_self _
    · exact Nat.lt_succ_of_lt (draft.opened_lt i hopened)

/-- Start a node below the innermost open one, or as the root when there is no node yet.  The new
node's index comes with the draft. -/
def start (draft : Draft) (kind : NodeKind) (span : Span) (loc : Location) :
    Except Misuse (Nat × Draft) :=
  if draft.opened.isEmpty && !draft.nodes.isEmpty then .error .secondRoot
  else .ok (draft.nodes.size, draft.push kind span loc)

def addHoles (draft : Draft) (count : Nat) : Except Misuse Draft :=
  match draft.opened with
  | [] => .error .nothingOpen
  | innermost :: _ =>
    .ok { draft with
      nodes := draft.nodes.modify innermost (withHoles · count)
      linked := linked_withHoles draft.linked innermost count
      opened_lt := fun i hi => by simpa using draft.opened_lt i hi }

def finish (draft : Draft) : Except Misuse Draft :=
  match h : draft.opened with
  | [] => .error .nothingOpen
  | _ :: outer =>
    .ok { draft with
      opened := outer
      opened_lt := fun i hi => draft.opened_lt i (h ▸ List.mem_cons_of_mem _ hi) }

/-- The tree of a draft in which every node is finished. -/
def complete (draft : Draft) : Except Misuse Tree :=
  if draft.opened.isEmpty then
    if h : 0 < draft.nodes.size then .ok ⟨draft.nodes, h, draft.linked⟩ else .error .emptyTree
  else .error (.unfinished draft.opened.length)

/-- Give a draft up, which must not have open nodes. -/
def discard (draft : Draft) : Except Misuse Unit :=
  if draft.opened.isEmpty then .ok () else .error .abandoned

inductive Step where
  | start (kind : NodeKind) (span : Span) (loc : Location)
  | holes (count : Nat)
  | finish
deriving DecidableEq

def step (draft : Draft) : Step → Except Misuse Draft
  | .start kind span loc => (draft.start kind span loc).map Prod.snd
  | .holes count => draft.addHoles count
  | .finish => draft.finish

def run (draft : Draft) (steps : List Step) : Except Misuse Draft :=
  steps.foldlM step draft

/-- The tree that the steps build from nothing. -/
def build (steps : List Step) : Except Misuse Tree := do
  let draft ← empty.run steps
  draft.complete

end Draft

end AnnotatedSource
