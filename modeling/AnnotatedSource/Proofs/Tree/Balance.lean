import AnnotatedSource.Proofs.Tree.WellFormed
import AnnotatedSource.Tree.Walk
import Mathlib.Data.Fintype.Card

/-!
Balance of walks.  However steps and skips are mixed, what a walk has yielded reads as brackets: a
node is left only while it is the innermost one entered and not left.  The nodes still open are the
path of the walk, which is the way up from its innermost node, and the nodes to come stand behind
all that were entered.
-/

set_option autoImplicit false
set_option relaxedAutoImplicit false

namespace AnnotatedSource.Tree

/-- What may be asked of a walk. -/
inductive Call where
  | next
  | skip
deriving DecidableEq

/-- A walk together with the events it has yielded, the latest last. -/
structure Journey (tree : Tree) where
  walk : Walk tree
  events : List (Event tree)

/-- The node that an event enters. -/
def Event.entered? {tree : Tree} : Event tree → Option tree.Id
  | .enter node _ => some node
  | .leave _ => none

def entered {tree : Tree} (events : List (Event tree)) : List tree.Id :=
  events.filterMap Event.entered?

/-- The open nodes after one more event, the innermost first.  There are none to tell when the event
leaves another node than the innermost. -/
def Event.open? {tree : Tree} (opened : List tree.Id) : Event tree → Option (List tree.Id)
  | .enter node _ => some (node :: opened)
  | .leave node =>
    match opened with
    | [] => none
    | innermost :: outer => if node = innermost then some outer else none

/-- The nodes entered and not left, the innermost first, when every event that leaves a node leaves
the latest one that is still open. -/
def open? {tree : Tree} (events : List (Event tree)) : Option (List tree.Id) :=
  events.foldlM Event.open? []

namespace Journey

variable {tree : Tree}

def fresh (tree : Tree) : Journey tree := ⟨tree.walk, []⟩

/-- Ask a walk for one thing.  A walk that is over and a skip that fails stay as they were. -/
def ask (journey : Journey tree) : Call → Journey tree
  | .next =>
    match journey.walk.next? with
    | none => journey
    | some (event, after) => ⟨after, journey.events ++ [event]⟩
  | .skip =>
    match journey.walk.skip with
    | .error _ => journey
    | .ok after => { journey with walk := after }

def askAll (journey : Journey tree) (calls : List Call) : Journey tree := calls.foldl ask journey

/-- What the events of a journey and the state of its walk say of each other. -/
structure Balanced (journey : Journey tree) (opened : List tree.Id) : Prop where
  /-- Every node is left as the latest one that is open. -/
  open?_eq : open? journey.events = some opened
  /-- The nodes entered are different ones, in the order of their indices. -/
  entered_sorted : (entered journey.events).Pairwise (· < ·)
  /-- A node is entered with the parent stored in it. -/
  parent_eq : ∀ node parent, .enter node parent ∈ journey.events → parent = tree.parent? node
  /-- The open nodes are the way up from the innermost. -/
  lineage_eq : ∀ innermost outer, opened = innermost :: outer → tree.lineage innermost = opened
  /-- The parent that the walk tells is the one stored in the innermost open node. -/
  parent?_eq : ∀ innermost outer, opened = innermost :: outer →
    journey.walk.parent? = tree.parent? innermost
  /-- There is no parent to tell while at most one node is open. -/
  parent?_none : opened.length ≤ 1 → journey.walk.parent? = none
  /-- A skip fails while no node is open, and only then. -/
  skip_error_iff : ∀ misuse,
    journey.walk.skip = .error misuse ↔ opened = [] ∧ misuse = .nothingToSkip
  /-- After a skip the innermost open node is left. -/
  leave_of_skip : ∀ innermost outer, opened = innermost :: outer →
    ∃ skipped after, journey.walk.skip = .ok skipped ∧
      skipped.next? = some (.leave innermost, after)
  /-- A walk has at most two events for each node. -/
  length_le : journey.events.length ≤ 2 * tree.size
  /-- A walk that is over has left all nodes, and stays over whatever is asked of it. -/
  ended : journey.walk.next? = none → opened = [] ∧ ∀ calls, journey.askAll calls = journey

end Journey

section Events

variable {tree : Tree}

theorem entered_append (events : List (Event tree)) (event : Event tree) :
    entered (events ++ [event]) = entered events ++ event.entered?.toList := by
  unfold entered
  rw [List.filterMap_append]
  cases event <;> rfl

theorem open?_append (events : List (Event tree)) (event : Event tree) :
    open? (events ++ [event]) = (open? events).bind fun opened => event.open? opened := by
  unfold open?
  rw [List.foldlM_append]
  cases events.foldlM Event.open? [] with
  | none => rfl
  | some opened => simp

theorem open?_append_cases {events : List (Event tree)} {event : Event tree}
    {opened : List tree.Id} (h : open? (events ++ [event]) = some opened) :
    (∃ node parent before, event = .enter node parent ∧ opened = node :: before ∧
      open? events = some before) ∨
    ∃ node, event = .leave node ∧ open? events = some (node :: opened) := by
  rw [open?_append, Option.bind_eq_some_iff] at h
  obtain ⟨before, hbefore, hevent⟩ := h
  cases event with
  | enter node parent =>
    exact .inl ⟨node, parent, before, rfl, (Option.some.inj hevent).symm, hbefore⟩
  | leave node =>
    cases before with
    | nil => simp [Event.open?] at hevent
    | cons innermost outer =>
      obtain ⟨rfl, rfl⟩ : node = innermost ∧ outer = opened := by
        simpa [Event.open?] using hevent
      exact .inr ⟨node, rfl, hbefore⟩

theorem length_add_length_of_open? {events : List (Event tree)} {opened : List tree.Id}
    (h : open? events = some opened) :
    events.length + opened.length = 2 * (entered events).length := by
  induction events using List.reverseRecOn generalizing opened with
  | nil =>
    obtain rfl := Option.some.inj h
    rfl
  | append_singleton events event ih =>
    rw [entered_append, List.length_append, List.length_append, List.length_singleton]
    rcases open?_append_cases h with ⟨node, parent, before, rfl, rfl, hbefore⟩ |
      ⟨node, rfl, hbefore⟩
    · have count := ih hbefore
      simp only [Event.entered?, Option.toList_some, List.length_cons, List.length_nil]
      omega
    · have count := ih hbefore
      simp only [Event.entered?, Option.toList_none, List.length_cons, List.length_nil] at count ⊢
      omega

theorem mem_entered_of_open? {events : List (Event tree)} {opened : List tree.Id}
    (h : open? events = some opened) {node : tree.Id} (member : node ∈ opened) :
    node ∈ entered events := by
  induction events using List.reverseRecOn generalizing opened with
  | nil =>
    obtain rfl := Option.some.inj h
    contradiction
  | append_singleton events event ih =>
    rw [entered_append, List.mem_append]
    rcases open?_append_cases h with ⟨latest, parent, before, rfl, rfl, hbefore⟩ |
      ⟨latest, rfl, hbefore⟩
    · rcases List.mem_cons.1 member with rfl | old
      · exact .inr (List.mem_singleton_self _)
      · exact .inl (ih hbefore old)
    · exact .inl (ih hbefore (List.mem_cons_of_mem latest member))

end Events

namespace Walk

variable {tree : Tree} {walk after : Walk tree} {event : Event tree}

theorem next?_cases (h : walk.next? = some (event, after)) :
    (∃ root, walk = ⟨some root, []⟩ ∧ event = .enter root none ∧
      after = ⟨none, [.enter root]⟩) ∨
    (∃ entrance node outer, walk = ⟨entrance, ⟨node, []⟩ :: outer⟩ ∧ event = .leave node ∧
      after = ⟨entrance, outer⟩) ∨
    (∃ entrance node child later outer, walk = ⟨entrance, ⟨node, child :: later⟩ :: outer⟩ ∧
      event = .enter child (some node) ∧
      after = ⟨entrance, .enter child :: ⟨node, later⟩ :: outer⟩) := by
  obtain ⟨entrance, path⟩ := walk
  match path, entrance with
  | [], none => simp [next?] at h
  | [], some root =>
    obtain ⟨rfl, rfl⟩ : _ = event ∧ _ = after := by simpa [next?] using h
    exact .inl ⟨root, rfl, rfl, rfl⟩
  | ⟨node, []⟩ :: outer, entrance =>
    obtain ⟨rfl, rfl⟩ : _ = event ∧ _ = after := by simpa [next?] using h
    exact .inr (.inl ⟨entrance, node, outer, rfl, rfl, rfl⟩)
  | ⟨node, child :: later⟩ :: outer, entrance =>
    obtain ⟨rfl, rfl⟩ : _ = event ∧ _ = after := by simpa [next?] using h
    exact .inr (.inr ⟨entrance, node, child, later, outer, rfl, rfl, rfl⟩)

theorem path_eq_nil_of_next? (h : walk.next? = none) : walk.path = [] := by
  obtain ⟨entrance, path⟩ := walk
  match path, entrance with
  | [], _ => rfl
  | ⟨_, []⟩ :: _, _ => simp [next?] at h
  | ⟨_, _ :: _⟩ :: _, _ => simp [next?] at h

theorem skip_cases (walk : Walk tree) :
    (walk.path = [] ∧ walk.skip = .error .nothingToSkip) ∨
    ∃ frame outer, walk.path = frame :: outer ∧
      walk.skip = .ok ⟨walk.entrance, ⟨frame.node, []⟩ :: outer⟩ := by
  obtain ⟨entrance, path⟩ := walk
  cases path with
  | nil => exact .inl ⟨rfl, rfl⟩
  | cons frame outer => exact .inr ⟨frame, outer, rfl, rfl⟩

theorem parent?_eq_head?_tail (walk : Walk tree) :
    walk.parent? = (walk.path.map Frame.node).tail.head? := by
  unfold parent?
  split
  · next h => simp [h]
  · next other =>
    match path : walk.path with
    | [] => rfl
    | [frame] => rfl
    | frame :: outer :: rest => exact absurd path (other frame outer rest)

end Walk

theorem parent?_eq_head?_ancestors (tree : Tree) (id : tree.Id) :
    tree.parent? id = (tree.ancestors id).head? := by
  cases h : tree.parent? id with
  | none => rw [ancestors_eq_nil h, List.head?_nil]
  | some parent => rw [ancestors_of_parent? h, List.head?_cons]

namespace Journey

variable {tree : Tree} {journey : Journey tree}

theorem ask_next_of_none (h : journey.walk.next? = none) : journey.ask .next = journey := by
  simp only [ask, h]

theorem ask_next_of_some {event : Event tree} {after : Walk tree}
    (h : journey.walk.next? = some (event, after)) :
    journey.ask .next = ⟨after, journey.events ++ [event]⟩ := by
  simp only [ask, h]

theorem ask_skip_of_error {misuse : Misuse} (h : journey.walk.skip = .error misuse) :
    journey.ask .skip = journey := by
  simp only [ask, h]

theorem ask_skip_of_ok {after : Walk tree} (h : journey.walk.skip = .ok after) :
    journey.ask .skip = ⟨after, journey.events⟩ := by
  simp only [ask, h]

/-- What holds of a walk under way and the events that it has yielded, whatever was asked of it. -/
structure Underway (journey : Journey tree) : Prop where
  entrance : ∀ root, journey.walk.entrance = some root →
    root = tree.root ∧ journey.walk.path = [] ∧ journey.events = []
  opened : open? journey.events = some (journey.walk.path.map Frame.node)
  lineage : ∀ frame outer, journey.walk.path = frame :: outer →
    (frame :: outer).map Frame.node = tree.lineage frame.node
  sorted : (entered journey.events).Pairwise (· < ·)
  parents : ∀ node parent, .enter node parent ∈ journey.events → parent = tree.parent? node
  pending_suffix : ∀ frame ∈ journey.walk.path, frame.pending <:+ tree.children frame.node
  entered_lt : ∀ node ∈ entered journey.events, ∀ frame ∈ journey.walk.path,
    ∀ later ∈ frame.pending, node < later

theorem underway_fresh (tree : Tree) : (fresh tree).Underway where
  entrance _ h := ⟨(Option.some.inj h).symm, rfl, rfl⟩
  opened := rfl
  lineage _ _ h := nomatch h
  sorted := List.Pairwise.nil
  parents _ _ member := nomatch member
  pending_suffix _ member := nomatch member
  entered_lt _ member := nomatch member

theorem mem_path_of_mem_outer {frame other : Frame tree} {outer : List (Frame tree)}
    (path : journey.walk.path = frame :: outer) (member : other ∈ outer) :
    other ∈ journey.walk.path := by
  rw [path]
  exact List.mem_cons_of_mem frame member

theorem Underway.entrance_eq_none (underway : journey.Underway) {frame : Frame tree}
    {outer : List (Frame tree)} (path : journey.walk.path = frame :: outer) :
    journey.walk.entrance = none := by
  cases h : journey.walk.entrance with
  | none => rfl
  | some root =>
    have nothing := (underway.entrance root h).2.1
    rw [path] at nothing
    contradiction

theorem Underway.lt_of_mem_outer (underway : journey.Underway) (built : tree.Built)
    {node child : tree.Id} {pending : List tree.Id} {outer : List (Frame tree)}
    (path : journey.walk.path = ⟨node, pending⟩ :: outer)
    (isParent : tree.parent? child = some node) {frame : Frame tree} (inside : frame ∈ outer)
    {later : tree.Id} (waits : later ∈ frame.pending) : child < later := by
  have onPath := mem_path_of_mem_outer path inside
  have lineage := underway.lineage _ _ path
  have above : frame.node ∈ tree.ancestors node := by
    rw [List.map_cons, Tree.lineage, List.cons.injEq] at lineage
    rw [← lineage.2]
    exact List.mem_map_of_mem inside
  -- The path goes on from that frame through a sibling of what is pending.
  obtain ⟨sibling, member, siblingParent⟩ := exists_child_of_mem_ancestors above
  have opened : sibling ∈ journey.walk.path.map Frame.node := by
    rw [path, lineage]
    exact member
  have order : sibling < later :=
    underway.entered_lt sibling (mem_entered_of_open? underway.opened opened) frame onPath later
      waits
  have laterParent : tree.parent? later = some frame.node :=
    built.mem_children_iff.1 ((underway.pending_suffix frame onPath).subset waits)
  exact built.lt_of_siblings siblingParent laterParent order
    (mem_lineage_of_parent? isParent member)

theorem underway_enter_root (underway : journey.Underway) {root : tree.Id}
    (before : journey.walk = ⟨some root, []⟩) :
    Underway ⟨⟨none, [.enter root]⟩, journey.events ++ [.enter root none]⟩ := by
  obtain ⟨atRoot, -, nothing⟩ := underway.entrance root (by rw [before])
  have noParent : tree.parent? root = none := by
    rw [atRoot]
    exact tree.parent?_root
  rw [nothing]
  exact {
    entrance := fun root h => nomatch h
    opened := rfl
    lineage := by
      rintro frame outer h
      obtain ⟨rfl, rfl⟩ := List.cons.inj h
      rw [Tree.lineage, Frame.enter, ancestors_eq_nil noParent]
      rfl
    sorted := List.pairwise_singleton _ _
    parents := by
      intro node parent member
      obtain ⟨rfl, rfl⟩ : node = root ∧ parent = none := by simpa using member
      exact noParent.symm
    pending_suffix := by
      intro frame member
      obtain rfl := List.mem_singleton.1 member
      exact List.suffix_refl _
    entered_lt := by
      intro node member frame inside later waits
      obtain rfl := List.mem_singleton.1 member
      obtain rfl := List.mem_singleton.1 inside
      exact child_gt waits }

theorem underway_leave (underway : journey.Underway) {entrance : Option tree.Id} {node : tree.Id}
    {outer : List (Frame tree)} (before : journey.walk = ⟨entrance, ⟨node, []⟩ :: outer⟩) :
    Underway ⟨⟨entrance, outer⟩, journey.events ++ [.leave node]⟩ := by
  have path : journey.walk.path = ⟨node, []⟩ :: outer := by rw [before]
  have lineage := underway.lineage _ _ path
  exact {
    entrance := by
      have entered := underway.entrance_eq_none path
      rw [before] at entered
      exact fun root h => nomatch entered.symm.trans h
    opened := by
      rw [open?_append, underway.opened, path]
      simp [Event.open?]
    lineage := by
      rintro frame rest rfl
      rw [List.map_cons, Tree.lineage, List.cons.injEq] at lineage
      have parent := parent?_eq_head?_ancestors tree node
      rw [← lineage.2, List.map_cons, List.head?_cons] at parent
      rw [lineage.2, ancestors_of_parent? parent]
      rfl
    sorted := by
      rw [entered_append]
      simpa [Event.entered?] using underway.sorted
    parents := by
      intro seen parent member
      rcases List.mem_append.1 member with old | new
      · exact underway.parents seen parent old
      · simp at new
    pending_suffix := fun frame member =>
      underway.pending_suffix frame (mem_path_of_mem_outer path member)
    entered_lt := by
      intro seen member frame inside
      rw [entered_append] at member
      refine underway.entered_lt seen ?_ frame (mem_path_of_mem_outer path inside)
      simpa [Event.entered?] using member }

theorem underway_enter_child (underway : journey.Underway) (built : tree.Built)
    {entrance : Option tree.Id} {node child : tree.Id} {later : List tree.Id}
    {outer : List (Frame tree)}
    (before : journey.walk = ⟨entrance, ⟨node, child :: later⟩ :: outer⟩) :
    Underway ⟨⟨entrance, .enter child :: ⟨node, later⟩ :: outer⟩,
      journey.events ++ [.enter child (some node)]⟩ := by
  have path : journey.walk.path = ⟨node, child :: later⟩ :: outer := by rw [before]
  have first : ⟨node, child :: later⟩ ∈ journey.walk.path := by
    rw [path]
    exact List.mem_cons_self
  have suffix : child :: later <:+ tree.children node := underway.pending_suffix _ first
  have isParent : tree.parent? child = some node :=
    built.mem_children_iff.1 (suffix.subset List.mem_cons_self)
  have order : (child :: later).Pairwise (· < ·) :=
    (built.pairwise_children node).sublist suffix.sublist
  have behind : ∀ seen ∈ entered journey.events, seen < child := by
    intro seen member
    exact underway.entered_lt seen member _ first child List.mem_cons_self
  have grown : entered (journey.events ++ [.enter child (some node)]) =
      entered journey.events ++ [child] := entered_append _ _
  exact {
    entrance := by
      have entered := underway.entrance_eq_none path
      rw [before] at entered
      exact fun root h => nomatch entered.symm.trans h
    opened := by
      rw [open?_append, underway.opened, path]
      rfl
    lineage := by
      rintro frame rest h
      obtain ⟨rfl, rfl⟩ := List.cons.inj h
      rw [Tree.lineage, Frame.enter, ancestors_of_parent? isParent, List.map_cons,
        List.cons.injEq]
      exact ⟨rfl, underway.lineage ⟨node, child :: later⟩ outer path⟩
    sorted := by
      rw [grown]
      refine List.pairwise_append.2 ⟨underway.sorted, List.pairwise_singleton _ _, ?_⟩
      intro seen member new hnew
      rw [List.mem_singleton.1 hnew]
      exact behind seen member
    parents := by
      intro seen parent member
      rcases List.mem_append.1 member with old | new
      · exact underway.parents seen parent old
      · obtain ⟨rfl, rfl⟩ : seen = child ∧ parent = some node := by simpa using new
        exact isParent.symm
    pending_suffix := by
      intro frame member
      rcases List.mem_cons.1 member with rfl | member
      · exact List.suffix_refl _
      · rcases List.mem_cons.1 member with rfl | member
        · exact (List.suffix_cons child later).trans suffix
        · exact underway.pending_suffix frame (mem_path_of_mem_outer path member)
    entered_lt := by
      -- All that was entered before stands before the child, so the child alone is to be compared.
      have reduced (waiting : tree.Id) (ahead : child < waiting) :
          ∀ seen ∈ entered (journey.events ++ [.enter child (some node)]), seen < waiting := by
        intro seen member
        rw [grown] at member
        rcases List.mem_append.1 member with old | new
        · exact Fin.lt_trans (behind seen old) ahead
        · rw [List.mem_singleton.1 new]
          exact ahead
      intro seen member frame inside waiting waits
      refine reduced waiting ?_ seen member
      rcases List.mem_cons.1 inside with rfl | inside
      · exact child_gt waits
      · rcases List.mem_cons.1 inside with rfl | inside
        · exact (List.pairwise_cons.1 order).1 waiting waits
        · exact underway.lt_of_mem_outer built path isParent inside waits }

theorem underway_skip (underway : journey.Underway) {frame : Frame tree}
    {outer : List (Frame tree)} (path : journey.walk.path = frame :: outer) :
    Underway ⟨⟨journey.walk.entrance, ⟨frame.node, []⟩ :: outer⟩, journey.events⟩ := by
  exact {
    entrance := fun root h => nomatch (underway.entrance_eq_none path).symm.trans h
    opened := by
      rw [underway.opened, path]
      rfl
    lineage := by
      rintro other rest h
      obtain ⟨rfl, rfl⟩ := List.cons.inj h
      exact underway.lineage frame outer path
    sorted := underway.sorted
    parents := underway.parents
    pending_suffix := by
      intro other member
      rcases List.mem_cons.1 member with rfl | member
      · exact List.nil_suffix
      · exact underway.pending_suffix other (mem_path_of_mem_outer path member)
    entered_lt := by
      intro node seen other member
      rcases List.mem_cons.1 member with rfl | member
      · exact fun later waits => nomatch waits
      · exact underway.entered_lt node seen other (mem_path_of_mem_outer path member) }

theorem underway_ask (underway : journey.Underway) (built : tree.Built) (call : Call) :
    (journey.ask call).Underway := by
  cases call with
  | next =>
    cases h : journey.walk.next? with
    | none =>
      rw [ask_next_of_none h]
      exact underway
    | some step =>
      obtain ⟨event, after⟩ := step
      rw [ask_next_of_some h]
      rcases Walk.next?_cases h with ⟨root, before, rfl, rfl⟩ |
        ⟨entrance, node, outer, before, rfl, rfl⟩ |
        ⟨entrance, node, child, later, outer, before, rfl, rfl⟩
      · exact underway_enter_root underway before
      · exact underway_leave underway before
      · exact underway_enter_child underway built before
  | skip =>
    rcases journey.walk.skip_cases with ⟨-, failed⟩ | ⟨frame, outer, path, skipped⟩
    · rw [ask_skip_of_error failed]
      exact underway
    · rw [ask_skip_of_ok skipped]
      exact underway_skip underway path

theorem underway_askAll (underway : journey.Underway) (built : tree.Built) (calls : List Call) :
    (journey.askAll calls).Underway := by
  induction calls generalizing journey with
  | nil => exact underway
  | cons call calls ih => exact ih (underway_ask underway built call)

theorem askAll_of_over (h : journey.walk.next? = none) (calls : List Call) :
    journey.askAll calls = journey := by
  have stays (call : Call) : journey.ask call = journey := by
    cases call with
    | next => exact ask_next_of_none h
    | skip =>
      rcases journey.walk.skip_cases with ⟨-, failed⟩ | ⟨frame, outer, path, -⟩
      · exact ask_skip_of_error failed
      · rw [Walk.path_eq_nil_of_next? h] at path
        contradiction
  induction calls with
  | nil => rfl
  | cons call calls ih =>
    change (journey.ask call).askAll calls = journey
    rw [stays]
    exact ih

theorem Underway.length_le (underway : journey.Underway) :
    journey.events.length ≤ 2 * tree.size := by
  have count := length_add_length_of_open? underway.opened
  have distinct : (entered journey.events).Nodup :=
    underway.sorted.imp fun order => Fin.ne_of_lt order
  have bound : (entered journey.events).length ≤ tree.size := by
    have bound := distinct.length_le_card
    rwa [Fintype.card_fin] at bound
  omega

theorem Underway.parent?_eq (underway : journey.Underway) {frame : Frame tree}
    {outer : List (Frame tree)} (path : journey.walk.path = frame :: outer) :
    journey.walk.parent? = tree.parent? frame.node := by
  rw [Walk.parent?_eq_head?_tail, path, underway.lineage frame outer path,
    parent?_eq_head?_ancestors]
  rfl

theorem Underway.balanced (underway : journey.Underway) :
    journey.Balanced (journey.walk.path.map Frame.node) := by
  have split {innermost : tree.Id} {outer : List tree.Id}
      (h : journey.walk.path.map Frame.node = innermost :: outer) :
      ∃ frame rest, journey.walk.path = frame :: rest ∧ frame.node = innermost := by
    obtain ⟨frame, rest, path, same, -⟩ := List.map_eq_cons_iff.1 h
    exact ⟨frame, rest, path, same⟩
  exact {
    open?_eq := underway.opened
    entered_sorted := underway.sorted
    parent_eq := underway.parents
    lineage_eq := by
      intro innermost outer h
      obtain ⟨frame, rest, path, rfl⟩ := split h
      rw [path]
      exact (underway.lineage frame rest path).symm
    parent?_eq := by
      intro innermost outer h
      obtain ⟨frame, rest, path, rfl⟩ := split h
      exact underway.parent?_eq path
    parent?_none := by
      intro few
      rw [Walk.parent?_eq_head?_tail, List.head?_eq_none_iff, ← List.length_eq_zero_iff,
        List.length_tail]
      omega
    skip_error_iff := by
      intro misuse
      rcases journey.walk.skip_cases with ⟨path, failed⟩ | ⟨frame, outer, path, skipped⟩
      · rw [path, failed]
        simp [eq_comm]
      · rw [path, skipped]
        simp
    leave_of_skip := by
      intro innermost outer h
      obtain ⟨frame, rest, path, rfl⟩ := split h
      rcases journey.walk.skip_cases with ⟨nothing, -⟩ | ⟨frame', outer', path', skipped⟩
      · rw [path] at nothing
        contradiction
      · obtain ⟨rfl, rfl⟩ := List.cons.inj (path.symm.trans path')
        exact ⟨_, _, skipped, rfl⟩
    length_le := underway.length_le
    ended := by
      intro h
      refine ⟨?_, askAll_of_over h⟩
      rw [Walk.path_eq_nil_of_next? h]
      rfl }

end Journey

/-- Whatever is asked of a walk through a built tree and in whatever order, the walk stays
balanced. -/
theorem balanced_askAll (tree : Tree) (built : tree.Built) (calls : List Call) :
    ∃ opened, ((Journey.fresh tree).askAll calls).Balanced opened := by
  have underway := Journey.underway_askAll (Journey.underway_fresh tree) built calls
  exact ⟨_, underway.balanced⟩

/-- A product of a name and a product of two names. -/
def product : Tree :=
  Shape.toTree <|
    .node .program (.ofWidth 0 11) .zero 0
      [.node .binaryExpression (.ofWidth 0 11) .zero 0
        [.node .identifier (.ofWidth 0 1) .zero 0 [],
        .node .binaryExpression (.ofWidth 5 5) .zero 0
          [.node .identifier (.ofWidth 5 1) .zero 0 [],
          .node .identifier (.ofWidth 9 1) .zero 0 []]]]

theorem balanced_askAll_product :
    product.Built ∧
      ((Journey.fresh product).askAll
        [.skip, .next, .next, .next, .next, .skip, .skip, .next]).events =
        [.enter ⟨0, by decide⟩ none, .enter ⟨1, by decide⟩ (some ⟨0, by decide⟩),
          .enter ⟨2, by decide⟩ (some ⟨1, by decide⟩), .leave ⟨2, by decide⟩,
          .leave ⟨1, by decide⟩] ∧
      ∃ opened, ((Journey.fresh product).askAll
        [.skip, .next, .next, .next, .next, .skip, .skip, .next]).Balanced opened := by
  have built : product.Built := Shape.built_toTree _
  exact ⟨built, by decide, balanced_askAll product built _⟩

end AnnotatedSource.Tree
