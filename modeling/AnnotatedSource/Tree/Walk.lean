import AnnotatedSource.Tree

/-!
Depth-first walks.  A walk enters a node, walks its children in order, and leaves the node; it can
be told to pass over the children that remain of the innermost node it is in.  `remaining` counts
the events still to come, and `remaining_of_next?` says that every step takes one of them.
-/

set_option autoImplicit false
set_option relaxedAutoImplicit false

namespace AnnotatedSource.Tree

/-- What happens on a walk.  On entering, the node above is reported too. -/
inductive Event (tree : Tree) where
  | enter (node : tree.Id) (parent : Option tree.Id)
  | leave (node : tree.Id)
deriving DecidableEq

/-- A node that was entered and not left, with its children still to be walked. -/
structure Frame (tree : Tree) where
  node : tree.Id
  pending : List tree.Id

/-- A walk under way: the node to enter from outside, if that is still to come, and the frames of
the entered nodes, the innermost first. -/
structure Walk (tree : Tree) where
  entrance : Option tree.Id
  path : List (Frame tree)

def Frame.enter {tree : Tree} (node : tree.Id) : Frame tree := ⟨node, tree.children node⟩

def walk (tree : Tree) : Walk tree := ⟨some tree.root, []⟩

def total (counts : List Nat) : Nat := counts.foldr (· + ·) 0

/-- The number of events that walking a node takes. -/
def eventCount (tree : Tree) (id : tree.Id) : Nat :=
  2 + total ((tree.children id).attach.map fun ⟨child, h⟩ =>
    have : tree.room child < tree.room id := room_lt h
    tree.eventCount child)
termination_by tree.room id

theorem eventCount_eq (tree : Tree) (id : tree.Id) :
    tree.eventCount id = 2 + total ((tree.children id).map tree.eventCount) := by
  rw [eventCount]
  simp only [List.map_subtype, List.unattach_attach]

/-- The number of events that finishing a frame takes. -/
def Frame.remaining {tree : Tree} (frame : Frame tree) : Nat :=
  1 + total (frame.pending.map tree.eventCount)

namespace Walk

/-- The next event and the walk after it, or nothing when the walk is over. -/
def next? {tree : Tree} (walk : Walk tree) : Option (Event tree × Walk tree) :=
  match walk.path with
  | [] =>
    match walk.entrance with
    | none => none
    | some node => some (.enter node none, ⟨none, [.enter node]⟩)
  | ⟨node, []⟩ :: outer => some (.leave node, { walk with path := outer })
  | ⟨node, child :: later⟩ :: outer =>
    some (.enter child (some node), { walk with path := .enter child :: ⟨node, later⟩ :: outer })

/-- Pass over what remains below the innermost entered node, if there is one. -/
def prune {tree : Tree} (walk : Walk tree) : Walk tree :=
  match walk.path with
  | [] => walk
  | frame :: outer => { walk with path := { frame with pending := [] } :: outer }

/-- Pass over what remains below the innermost entered node, which must exist. -/
def skip {tree : Tree} (walk : Walk tree) : Except Misuse (Walk tree) :=
  if walk.path.isEmpty then .error .nothingToSkip else .ok walk.prune

def parent? {tree : Tree} (walk : Walk tree) : Option tree.Id :=
  match walk.path with
  | _ :: outer :: _ => some outer.node
  | _ => none

/-- The number of events still to come. -/
def remaining {tree : Tree} (walk : Walk tree) : Nat :=
  (walk.entrance.map tree.eventCount).getD 0 + total (walk.path.map Frame.remaining)

private theorem one_add_remaining_enter {tree : Tree} (node : tree.Id) :
    1 + (Frame.enter node).remaining = tree.eventCount node := by
  rw [eventCount_eq]
  simp only [Frame.remaining, Frame.enter]
  omega

/-- Every step takes one of the events still to come. -/
theorem remaining_of_next? {tree : Tree} {walk after : Walk tree} {event : Event tree}
    (h : walk.next? = some (event, after)) : after.remaining + 1 = walk.remaining := by
  obtain ⟨entrance, path⟩ := walk
  match path, entrance with
  | [], none => simp [next?] at h
  | [], some node =>
    simp only [next?, Option.some.injEq, Prod.mk.injEq] at h
    rw [← h.2]
    have entered := one_add_remaining_enter node
    simp [remaining, total]
    omega
  | ⟨node, []⟩ :: outer, entrance =>
    simp only [next?, Option.some.injEq, Prod.mk.injEq] at h
    rw [← h.2]
    simp [remaining, Frame.remaining, total]
    omega
  | ⟨node, child :: later⟩ :: outer, entrance =>
    simp only [next?, Option.some.injEq, Prod.mk.injEq] at h
    rw [← h.2]
    have entered := one_add_remaining_enter child
    simp [remaining, Frame.remaining, total] at entered ⊢
    omega

theorem remaining_prune_le {tree : Tree} (walk : Walk tree) :
    walk.prune.remaining ≤ walk.remaining := by
  obtain ⟨entrance, path⟩ := walk
  match path with
  | [] => exact Nat.le_refl _
  | frame :: outer =>
    simp [prune, remaining, Frame.remaining, total]

def finished {tree : Tree} : Walk tree := ⟨none, []⟩

/-- The events of a walk from here to its end. -/
def events {tree : Tree} (walk : Walk tree) : List (Event tree) :=
  match h : walk.next? with
  | none => []
  | some (event, after) =>
    have : after.remaining < walk.remaining := by
      have step := remaining_of_next? h
      omega
    event :: after.events
termination_by walk.remaining

end Walk

end AnnotatedSource.Tree
