import AnnotatedSource.Tree.Draft

/-!
Shapes are trees without indices: a node and the shapes below it.  Every shape has a tree, built by
starting each node, counting its holes, building what lies below it and finishing it.  None of
these steps can fail, which is `run_steps`.
-/

set_option autoImplicit false
set_option relaxedAutoImplicit false

namespace AnnotatedSource

/-- A tree without indices. -/
inductive Shape where
  | node (kind : NodeKind) (span : Span) (loc : Location) (holes : Nat) (children : List Shape)

namespace Shape

def span : Shape → Span
  | .node _ span _ _ _ => span

mutual

/-- The steps that build a shape. -/
def steps : Shape → List Draft.Step
  | .node kind span loc holes children =>
    .start kind span loc :: .holes holes :: (stepsAll children ++ [.finish])

def stepsAll : List Shape → List Draft.Step
  | [] => []
  | shape :: rest => steps shape ++ stepsAll rest

end

private theorem start_of_ready {draft : Draft} (kind : NodeKind) (span : Span) (loc : Location)
    (ready : draft.opened ≠ [] ∨ draft.nodes = #[]) :
    draft.step (.start kind span loc) = .ok (draft.push kind span loc) := by
  have allowed : (draft.opened.isEmpty && !draft.nodes.isEmpty) = false := by
    rcases ready with hopened | hnodes
    · simp [hopened]
    · simp [hnodes]
  simp [Draft.step, Draft.start, allowed, Except.map]

theorem addHoles_of_opened (draft : Draft) {innermost : Nat} {outer : List Nat}
    (count : Nat) (h : draft.opened = innermost :: outer) :
    ∃ after, draft.step (.holes count) = .ok after ∧ after.opened = draft.opened ∧
      after.nodes.size = draft.nodes.size := by
  simp only [Draft.step, Draft.addHoles]
  split
  · next hnil => rw [h] at hnil; contradiction
  · exact ⟨_, rfl, rfl, Array.size_modify⟩

private theorem finish_of_opened {draft : Draft} {innermost : Nat} {outer : List Nat}
    (h : draft.opened = innermost :: outer) :
    ∃ after, draft.step .finish = .ok after ∧ after.opened = outer ∧
      after.nodes = draft.nodes := by
  simp only [Draft.step, Draft.finish]
  split
  · next hnil => rw [h] at hnil; contradiction
  · next hcons =>
    rw [h] at hcons
    cases hcons
    exact ⟨_, rfl, rfl, rfl⟩

private theorem run_cons {draft after : Draft} {step : Draft.Step} (rest : List Draft.Step)
    (h : draft.step step = .ok after) : draft.run (step :: rest) = after.run rest := by
  simp [Draft.run, List.foldlM_cons, h, bind, Except.bind]

private theorem run_append {draft after : Draft} {first : List Draft.Step}
    (rest : List Draft.Step) (h : draft.run first = .ok after) :
    draft.run (first ++ rest) = after.run rest := by
  unfold Draft.run at h ⊢
  rw [List.foldlM_append, h]
  rfl

mutual

theorem run_steps (shape : Shape) (draft : Draft)
    (ready : draft.opened ≠ [] ∨ draft.nodes = #[]) :
    ∃ after, draft.run shape.steps = .ok after ∧ after.opened = draft.opened ∧
      0 < after.nodes.size := by
  match shape with
  | .node kind span loc holes children =>
    -- Starting the node opens it, its children leave it open, and finishing it closes it again.
    obtain ⟨counted, hcounted, hopened, hsize⟩ :=
      addHoles_of_opened (draft.push kind span loc) holes rfl
    obtain ⟨filled, hfilled, hfilledOpened, hfilledSize⟩ :=
      run_stepsAll children counted (by simp [hopened, Draft.push])
    obtain ⟨after, hafter, hafterOpened, hafterNodes⟩ :=
      finish_of_opened (hfilledOpened.trans hopened)
    refine ⟨after, ?_, hafterOpened, ?_⟩
    · rw [steps, run_cons _ (start_of_ready kind span loc ready), run_cons _ hcounted,
        run_append _ hfilled, run_cons _ hafter]
      rfl
    · have pushed : 0 < (draft.push kind span loc).nodes.size := by
        simp [Draft.push, Draft.size_adopt]
      rw [hafterNodes]
      omega

theorem run_stepsAll (shapes : List Shape) (draft : Draft) (opened : draft.opened ≠ []) :
    ∃ after, draft.run (stepsAll shapes) = .ok after ∧ after.opened = draft.opened ∧
      (0 < draft.nodes.size → 0 < after.nodes.size) := by
  match shapes with
  | [] => exact ⟨draft, rfl, rfl, id⟩
  | shape :: rest =>
    obtain ⟨first, hfirst, hfirstOpened, hfirstSize⟩ := run_steps shape draft (.inl opened)
    obtain ⟨after, hafter, hafterOpened, hafterSize⟩ :=
      run_stepsAll rest first (hfirstOpened ▸ opened)
    refine ⟨after, ?_, hafterOpened.trans hfirstOpened, fun _ => hafterSize hfirstSize⟩
    rw [stepsAll, run_append _ hfirst, hafter]

end

/-- Building a shape from nothing gives a tree. -/
theorem build_steps (shape : Shape) : ∃ tree, Draft.build shape.steps = .ok tree := by
  obtain ⟨draft, hdraft, hopened, hsize⟩ := run_steps shape Draft.empty (.inr rfl)
  refine ⟨⟨draft.nodes, hsize, draft.linked⟩, ?_⟩
  have closed : draft.opened.isEmpty = true := by rw [hopened]; rfl
  simp [Draft.build, hdraft, Draft.complete, closed, hsize, bind, Except.bind]

def toTree (shape : Shape) : Tree :=
  match h : Draft.build shape.steps with
  | .ok tree => tree
  | .error _ => absurd (build_steps shape) (by simp [h])

end Shape

/-- The shape below a node. -/
def Tree.shapeAt (tree : Tree) (id : tree.Id) : Shape :=
  let node := tree.node id
  .node node.kind node.span node.loc node.holes <|
    (tree.children id).attach.map fun ⟨child, h⟩ =>
      have : tree.room child < tree.room id := Tree.room_lt h
      tree.shapeAt child
termination_by tree.room id

def Tree.shape (tree : Tree) : Shape := tree.shapeAt tree.root

end AnnotatedSource
