import AnnotatedSource.Proofs.Tree.Layout

/-!
Every built tree is the tree of a shape.  Whatever steps are taken, the draft that they lead to is
reached by canonical steps too, which count the holes of a node once and as soon as it is started.
While nodes are open they follow the open nodes from the root inwards; once the root is finished
they are the steps of a shape.
-/

set_option autoImplicit false
set_option relaxedAutoImplicit false

namespace AnnotatedSource

/-- An open node: what is known of it, and the shapes already finished below it. -/
structure Branch where
  kind : NodeKind
  span : Span
  loc : Location
  holes : Nat
  children : List Shape

namespace Branch

def shape (branch : Branch) : Shape :=
  .node branch.kind branch.span branch.loc branch.holes branch.children

/-- The canonical steps from the start of a node to where it stands now. -/
def steps (branch : Branch) : List Draft.Step :=
  .start branch.kind branch.span branch.loc :: .holes branch.holes ::
    Shape.stepsAll branch.children

/-- The canonical steps to several open nodes, the innermost first. -/
def stepsAll : List Branch → List Draft.Step
  | [] => []
  | branch :: outer => stepsAll outer ++ branch.steps

theorem steps_shape (branch : Branch) : branch.shape.steps = branch.steps ++ [.finish] := rfl

end Branch

theorem Shape.stepsAll_eq_flatMap (shapes : List Shape) :
    stepsAll shapes = shapes.flatMap steps := by
  induction shapes with
  | nil => rfl
  | cons shape rest ih => rw [stepsAll, ih, List.flatMap_cons]

theorem Branch.stepsAll_append_shape (branch : Branch) (outer : List Branch) (shape : Shape) :
    stepsAll (branch :: outer) ++ shape.steps =
      stepsAll ({ branch with children := branch.children ++ [shape] } :: outer) := by
  simp [stepsAll, steps, Shape.stepsAll_eq_flatMap]

namespace Draft

theorem eq_of_nodes_of_opened {left right : Draft} (nodes : left.nodes = right.nodes)
    (opened : left.opened = right.opened) : left = right := by
  cases left
  cases right
  simp_all

theorem step_holes_zero {draft : Draft} {innermost : Nat} {outer : List Nat}
    (opened : draft.opened = innermost :: outer) : draft.step (.holes 0) = .ok draft := by
  obtain ⟨after, taken, -⟩ := Shape.addHoles_of_opened draft 0 opened
  obtain ⟨stays, nodes⟩ := nodes_of_holes opened taken
  have same : (withHoles · 0) = id := funext withHoles_zero
  rw [same, List.modify_id] at nodes
  rw [taken, eq_of_nodes_of_opened (Array.toList_inj.1 nodes) stays]

theorem run_holes_first {draft counted filled after : Draft} {first second innermost : Nat}
    {outer : List Nat} {shapes : List Shape} (opened : draft.opened = innermost :: outer)
    (hcounted : draft.step (.holes first) = .ok counted)
    (hfilled : counted.run (Shape.stepsAll shapes) = .ok filled)
    (hafter : filled.step (.holes second) = .ok after) :
    draft.run (.holes (first + second) :: Shape.stepsAll shapes) = .ok after := by
  obtain ⟨total, htotal, -⟩ := Shape.addHoles_of_opened draft (first + second) opened
  obtain ⟨countedOpened, countedNodes⟩ := nodes_of_holes opened hcounted
  obtain ⟨totalOpened, totalNodes⟩ := nodes_of_holes opened htotal
  obtain ⟨filledOpened, filledNodes⟩ :=
    Shape.nodes_of_run_stepsAll shapes (countedOpened.trans opened) hfilled
  obtain ⟨afterOpened, afterNodes⟩ :=
    nodes_of_holes (filledOpened.trans (countedOpened.trans opened)) hafter
  obtain ⟨whole, hwhole, -⟩ := Shape.run_stepsAll shapes total (by simp [totalOpened, opened])
  obtain ⟨wholeOpened, wholeNodes⟩ :=
    Shape.nodes_of_run_stepsAll shapes (totalOpened.trans opened) hwhole
  have size : counted.nodes.size = total.nodes.size := by
    rw [← Array.length_toList, ← Array.length_toList, countedNodes, totalNodes,
      List.length_modify, List.length_modify]
  have inside : innermost < counted.nodes.toList.length :=
    counted.opened_lt innermost (by simp [countedOpened, opened])
  have same : after = whole := by
    refine eq_of_nodes_of_opened (Array.toList_inj.1 ?_) ?_
    · rw [afterNodes, filledNodes, withHoles_graft inside, wholeNodes, countedNodes, totalNodes,
        List.modify_modify_eq, size]
      congr 2
      funext node
      exact withHoles_withHoles node first second
    · rw [afterOpened, filledOpened, countedOpened, wholeOpened, totalOpened]
  rw [run_cons_eq_ok_iff, same]
  exact ⟨total, htotal, hwhole⟩

/-- A draft that canonical steps lead to. -/
inductive Canonical (draft : Draft) : Prop where
  | underway (branches : List Branch) (ran : empty.run (Branch.stepsAll branches) = .ok draft)
  | finished (shape : Shape) (ran : empty.run shape.steps = .ok draft)

theorem run_branch_iff {branch : Branch} {outer : List Branch} {draft : Draft} :
    empty.run (Branch.stepsAll (branch :: outer)) = .ok draft ↔
      ∃ before started, empty.run (Branch.stepsAll outer) = .ok before ∧
        before.step (.start branch.kind branch.span branch.loc) = .ok started ∧
          started.run (.holes branch.holes :: Shape.stepsAll branch.children) = .ok draft := by
  rw [Branch.stepsAll, Branch.steps, run_append_eq_ok_iff]
  refine exists_congr fun before => ?_
  rw [run_cons_eq_ok_iff, exists_and_left]

theorem length_opened_of_run {branches : List Branch} {draft : Draft}
    (h : empty.run (Branch.stepsAll branches) = .ok draft) :
    draft.opened.length = branches.length := by
  induction branches generalizing draft with
  | nil =>
    obtain rfl := run_nil_eq_ok_iff.1 h
    rfl
  | cons branch outer ih =>
    obtain ⟨before, started, hbefore, hstarted, h⟩ := run_branch_iff.1 h
    obtain ⟨counted, hcounted, hfilled⟩ := run_cons_eq_ok_iff.1 h
    have startedOpened := (nodes_of_start hstarted).1
    have countedOpened := (nodes_of_holes startedOpened hcounted).1
    have opened := (Shape.nodes_of_run_stepsAll branch.children
      (countedOpened.trans startedOpened) hfilled).1
    rw [opened, countedOpened, startedOpened, List.length_cons, List.length_cons, ih hbefore]

theorem opened_eq_nil_of_run {shape : Shape} {draft : Draft}
    (h : empty.run shape.steps = .ok draft) : draft.opened = [] ∧ draft.nodes ≠ #[] := by
  obtain ⟨opened, nodes⟩ := Shape.nodes_of_run_steps shape h
  refine ⟨opened, ?_⟩
  rintro nothing
  rw [nothing] at nodes
  exact shape.layout_ne_nil none 0 nodes.symm

theorem Canonical.exists_branch {draft : Draft} {innermost : Nat} {outer : List Nat}
    (canonical : draft.Canonical) (opened : draft.opened = innermost :: outer) :
    ∃ branch around, empty.run (Branch.stepsAll (branch :: around)) = .ok draft := by
  cases canonical with
  | underway branches ran =>
    cases branches with
    | nil =>
      have length := length_opened_of_run ran
      rw [opened] at length
      contradiction
    | cons branch around => exact ⟨branch, around, ran⟩
  | finished shape ran =>
    rw [(opened_eq_nil_of_run ran).1] at opened
    contradiction

theorem canonical_start {draft after : Draft} {kind : NodeKind} {span : Span} {loc : Location}
    (canonical : draft.Canonical) (ready : draft.opened = [] → draft.nodes = #[])
    (h : draft.step (.start kind span loc) = .ok after) : after.Canonical := by
  cases canonical with
  | underway branches ran =>
    refine .underway (⟨kind, span, loc, 0, []⟩ :: branches) ?_
    refine run_branch_iff.2 ⟨draft, after, ran, h, ?_⟩
    exact run_cons_eq_ok_iff.2 ⟨after, step_holes_zero (nodes_of_start h).1, rfl⟩
  | finished shape ran =>
    obtain ⟨opened, nonempty⟩ := opened_eq_nil_of_run ran
    exact absurd (ready opened) nonempty

theorem canonical_holes {draft after : Draft} {count innermost : Nat} {outer : List Nat}
    (canonical : draft.Canonical) (opened : draft.opened = innermost :: outer)
    (h : draft.step (.holes count) = .ok after) : after.Canonical := by
  obtain ⟨branch, around, ran⟩ := canonical.exists_branch opened
  obtain ⟨before, started, hbefore, hstarted, ran⟩ := run_branch_iff.1 ran
  obtain ⟨counted, hcounted, hfilled⟩ := run_cons_eq_ok_iff.1 ran
  refine .underway ({ branch with holes := branch.holes + count } :: around) ?_
  refine run_branch_iff.2 ⟨before, started, hbefore, hstarted, ?_⟩
  exact run_holes_first (nodes_of_start hstarted).1 hcounted hfilled h

theorem canonical_finish {draft after : Draft} {innermost : Nat} {outer : List Nat}
    (canonical : draft.Canonical) (opened : draft.opened = innermost :: outer)
    (h : draft.step .finish = .ok after) : after.Canonical := by
  obtain ⟨branch, around, ran⟩ := canonical.exists_branch opened
  have closed : empty.run (Branch.stepsAll around ++ branch.shape.steps) = .ok after := by
    rw [Branch.steps_shape, ← List.append_assoc]
    exact run_append_eq_ok_iff.2 ⟨draft, ran, run_cons_eq_ok_iff.2 ⟨after, h, rfl⟩⟩
  cases around with
  | nil => exact .finished branch.shape closed
  | cons next around =>
    -- The finished node becomes the last of the shapes below the node around it.
    refine .underway ({ next with children := next.children ++ [branch.shape] } :: around) ?_
    rw [← Branch.stepsAll_append_shape]
    exact closed

theorem canonical_step {draft after : Draft} {step : Step} (canonical : draft.Canonical)
    (h : draft.step step = .ok after) : after.Canonical := by
  rcases step_cases h with ⟨kind, span, loc, rfl, ready, -⟩ |
    ⟨count, innermost, outer, rfl, opened, -⟩ | ⟨innermost, outer, rfl, opened, -⟩
  · exact canonical_start canonical ready h
  · exact canonical_holes canonical opened h
  · exact canonical_finish canonical opened h

theorem canonical_of_run {draft : Draft} {steps : List Step} (h : empty.run steps = .ok draft) :
    draft.Canonical :=
  run_induction canonical_step (.underway [] rfl) h

end Draft

namespace Tree

variable {tree : Tree}

/-- Every built tree is built by the steps of a shape. -/
theorem Built.exists_shape (built : tree.Built) :
    ∃ shape : Shape, Draft.build shape.steps = .ok tree := by
  obtain ⟨steps, hsteps⟩ := built
  obtain ⟨draft, ran, completed⟩ := Draft.run_of_build hsteps
  obtain ⟨opened, nodes⟩ := Draft.nodes_of_complete completed
  cases Draft.canonical_of_run ran with
  | underway branches canonical =>
    have length := Draft.length_opened_of_run canonical
    rw [opened] at length
    obtain rfl := List.length_eq_zero_iff.1 length.symm
    obtain rfl := Draft.run_nil_eq_ok_iff.1 canonical
    have nonempty := tree.nonempty
    rw [← nodes] at nonempty
    exact absurd nonempty (Nat.lt_irrefl 0)
  | finished shape canonical => exact ⟨shape, (Draft.build_of_run canonical).trans completed⟩

theorem Built.build_shape (built : tree.Built) : Draft.build tree.shape.steps = .ok tree := by
  obtain ⟨shape, hshape⟩ := built.exists_shape
  rw [Shape.shape_of_build_steps hshape]
  exact hshape

theorem Built.toTree_shape (built : tree.Built) : tree.shape.toTree = tree :=
  Except.ok.inj (tree.shape.build_toTree.symm.trans built.build_shape)

end Tree

end AnnotatedSource
