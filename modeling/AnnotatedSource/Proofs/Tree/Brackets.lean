import AnnotatedSource.Proofs.Span
import AnnotatedSource.Proofs.Tree.Built
import Mathlib.Combinatorics.Enumerative.DyckWord

/-!
Which steps build a tree.  Starting a node opens a bracket and finishing one closes it; steps build
a tree when their brackets are one balanced pair and holes are counted inside it.  Whatever else is
tried fails at the first step that finds no open node where it needs one, or finds a finished tree,
or else when the draft is to be completed.
-/

set_option autoImplicit false
set_option relaxedAutoImplicit false

namespace AnnotatedSource.Draft

/-- The bracket that a step stands for. -/
def Step.bracket? : Step → Option DyckStep
  | .start _ _ _ => some .U
  | .holes _ => none
  | .finish => some .D

def Step.holeCount : Step → Nat
  | .holes count => count
  | _ => 0

def brackets (steps : List Step) : List DyckStep := steps.filterMap Step.bracket?

def starts (steps : List Step) : Nat := (brackets steps).count .U

def finishes (steps : List Step) : Nat := (brackets steps).count .D

/-- Steps that leave a node open. -/
def LeavesOpen (steps : List Step) : Prop := finishes steps < starts steps

/-- Steps that finish all nodes they start and no others. -/
def Balanced (steps : List Step) : Prop := ∃ word : DyckWord, word.toList = brackets steps

/-- Steps with a nonempty balanced word for their brackets, whose depth returns to zero at the end
and not before, and with holes only where a node is open. -/
structure SingleTree (steps : List Step) : Prop where
  nested : ∃ word : DyckWord, word.toList = brackets steps ∧ word.IsNested
  holes_inside : ∀ before count after, steps = before ++ .holes count :: after →
    LeavesOpen before

/-- What is wrong with a step that is taken after others. -/
inductive Offends (before : List Step) : Step → Misuse → Prop
  | finish (closed : ¬LeavesOpen before) : Offends before .finish .nothingOpen
  | holes (closed : ¬LeavesOpen before) (count : Nat) :
      Offends before (.holes count) .nothingOpen
  | start (closed : ¬LeavesOpen before) (earlier : 0 < starts before) (kind : NodeKind)
      (span : Span) (loc : Location) : Offends before (.start kind span loc) .secondRoot

/-- Steps of which none is wrong where it stands. -/
def Blameless (steps : List Step) : Prop :=
  ∀ before step after misuse, steps = before ++ step :: after → ¬Offends before step misuse

/-- What steps lack of a tree when none of them is wrong. -/
inductive Lacks (steps : List Step) : Misuse → Prop
  | unfinished {count : Nat} (positive : 0 < count) (left : starts steps = finishes steps + count) :
      Lacks steps (.unfinished count)
  | emptyTree (nothing : starts steps = 0) : Lacks steps .emptyTree

/-- Building gets to a step and fails there. -/
def FailsAt (before : List Step) (step : Step) (misuse : Misuse) : Prop :=
  ∃ draft, empty.run before = .ok draft ∧ draft.step step = .error misuse

/-- Building takes all steps and fails to complete the draft. -/
def FailsAtEnd (steps : List Step) (misuse : Misuse) : Prop :=
  ∃ draft, empty.run steps = .ok draft ∧ draft.complete = .error misuse

/-- Steps that never finish more nodes than they started, and leave so many open. -/
def Rises (steps : List Step) (height : Nat) : Prop :=
  (∀ front ∈ steps.inits, finishes front ≤ starts front) ∧ starts steps = finishes steps + height

instance (steps : List Step) (height : Nat) : Decidable (Rises steps height) :=
  inferInstanceAs (Decidable (_ ∧ _))

section Count

variable (steps : List Step) (kind : NodeKind) (span : Span) (loc : Location) (count : Nat)

theorem starts_append (first second : List Step) :
    starts (first ++ second) = starts first + starts second := by
  simp [starts, brackets]

theorem finishes_append (first second : List Step) :
    finishes (first ++ second) = finishes first + finishes second := by
  simp [finishes, brackets]

@[simp] theorem starts_start : starts (steps ++ [.start kind span loc]) = starts steps + 1 :=
  starts_append _ _

@[simp] theorem starts_holes : starts (steps ++ [.holes count]) = starts steps :=
  starts_append _ _

@[simp] theorem starts_finish : starts (steps ++ [.finish]) = starts steps :=
  starts_append _ _

@[simp] theorem finishes_start : finishes (steps ++ [.start kind span loc]) = finishes steps :=
  finishes_append _ _

@[simp] theorem finishes_holes : finishes (steps ++ [.holes count]) = finishes steps :=
  finishes_append _ _

@[simp] theorem finishes_finish : finishes (steps ++ [.finish]) = finishes steps + 1 :=
  finishes_append _ _

end Count

theorem append_singleton_eq_iff {steps before after : List Step} {last step : Step} :
    steps ++ [last] = before ++ step :: after ↔
      (after = [] ∧ steps = before ∧ last = step) ∨
        ∃ rest, after = rest ++ [last] ∧ steps = before ++ step :: rest := by
  rcases List.eq_nil_or_concat after with rfl | ⟨rest, other, rfl⟩
  · simp
  · rw [List.concat_eq_append, ← List.cons_append, ← List.append_assoc, List.append_singleton_inj]
    constructor
    · rintro ⟨same, rfl⟩
      exact .inr ⟨rest, rfl, same⟩
    · rintro (⟨nothing, -⟩ | ⟨others, same, split⟩)
      · simp at nothing
      · obtain ⟨rfl, rfl⟩ := List.append_singleton_inj.1 same
        exact ⟨split, rfl⟩

section Rising

variable {steps : List Step} {height : Nat}

theorem rises_concat_iff {last : Step} :
    Rises (steps ++ [last]) height ↔
      (∀ front ∈ steps.inits, finishes front ≤ starts front) ∧
        finishes (steps ++ [last]) ≤ starts (steps ++ [last]) ∧
          starts (steps ++ [last]) = finishes (steps ++ [last]) + height := by
  simp only [Rises, List.mem_inits, List.prefix_concat_iff, or_imp, forall_and, forall_eq]
  tauto

theorem rises_start_iff {kind : NodeKind} {span : Span} {loc : Location} :
    Rises (steps ++ [.start kind span loc]) height ↔
      ∃ lower, height = lower + 1 ∧ Rises steps lower := by
  rw [rises_concat_iff, starts_start, finishes_start]
  constructor
  · rintro ⟨fronts, -, count⟩
    have whole := fronts steps (by simp)
    exact ⟨height - 1, by omega, fronts, by omega⟩
  · rintro ⟨lower, rfl, fronts, count⟩
    exact ⟨fronts, by omega, by omega⟩

theorem rises_holes_iff {count : Nat} :
    Rises (steps ++ [.holes count]) height ↔ Rises steps height := by
  rw [rises_concat_iff, starts_holes, finishes_holes, Rises]
  constructor
  · rintro ⟨fronts, -, count⟩
    exact ⟨fronts, count⟩
  · rintro ⟨fronts, count⟩
    exact ⟨fronts, by omega, count⟩

theorem rises_finish_iff : Rises (steps ++ [.finish]) height ↔ Rises steps (height + 1) := by
  rw [rises_concat_iff, starts_finish, finishes_finish, Rises]
  constructor
  · rintro ⟨fronts, -, count⟩
    exact ⟨fronts, by omega⟩
  · rintro ⟨fronts, count⟩
    exact ⟨fronts, by omega, by omega⟩

theorem rises_nil_iff : Rises [] height ↔ height = 0 := by
  simp [Rises, starts, finishes, brackets, eq_comm]

theorem exists_take_brackets (steps : List Step) (length : Nat) :
    ∃ front behind, steps = front ++ behind ∧
      brackets front = (brackets steps).take length ∧
      brackets behind = (brackets steps).drop length :=
  List.filterMap_eq_append_iff.1 (List.take_append_drop length (brackets steps)).symm

theorem balanced_iff_rises : Balanced steps ↔ Rises steps 0 := by
  constructor
  · rintro ⟨word, same⟩
    refine ⟨fun front isFront => ?_, ?_⟩
    · have bracketsFront : brackets front <+: brackets steps :=
        ((List.mem_inits _ _).1 isFront).filterMap _
      rw [finishes, starts, List.prefix_iff_eq_take.1 bracketsFront, ← same]
      exact word.count_D_le_count_U _
    · rw [starts, finishes, ← same]
      exact word.count_U_eq_count_D
  · rintro ⟨fronts, count⟩
    refine ⟨⟨brackets steps, count, fun length => ?_⟩, rfl⟩
    obtain ⟨front, behind, split, isFront, -⟩ := exists_take_brackets steps length
    rw [← isFront]
    exact fronts front ((List.mem_inits _ _).2 ⟨behind, split.symm⟩)

instance (steps : List Step) : Decidable (Balanced steps) :=
  decidable_of_iff' _ balanced_iff_rises

end Rising

/-- The holes counted by the steps behind the start of a node while that node is the innermost open
one: all that was started behind it is finished, and it is not finished itself. -/
def holesWithin (behind : List Step) : Nat :=
  (behind.zipIdx.map fun (step, place) =>
    if Balanced (behind.take place) then step.holeCount else 0).sum

theorem holesWithin_append_singleton (behind : List Step) (last : Step) :
    holesWithin (behind ++ [last]) =
      holesWithin behind + if Balanced behind then last.holeCount else 0 := by
  have before : (behind.zipIdx.map fun (step, place) =>
        if Balanced ((behind ++ [last]).take place) then step.holeCount else 0) =
      behind.zipIdx.map fun (step, place) =>
        if Balanced (behind.take place) then step.holeCount else 0 := by
    apply List.map_congr_left
    rintro ⟨step, place⟩ member
    have inside := List.snd_lt_of_mem_zipIdx member
    simp only [Nat.add_zero] at inside
    simp only [List.take_append_of_le_length (Nat.le_of_lt inside)]
  rw [holesWithin, List.zipIdx_append, List.map_append, List.sum_append, before]
  simp [holesWithin]

/-- What a node keeps of its start and of the holes counted on it. -/
structure Records (node : Node) (kind : NodeKind) (span : Span) (loc : Location) (holes : Nat) :
    Prop where
  kind_eq : node.kind = kind
  span_eq : node.span = span
  loc_eq : node.loc = loc
  holes_eq : node.holes = holes

/-- What a draft says of the steps that led to it.  Nodes are numbered in the order of their starts,
and a node stands so deep among the open ones as the steps behind its start rise. -/
structure Reflects (steps : List Step) (draft : Draft) : Prop where
  size_eq : draft.nodes.size = starts steps
  opened_eq : starts steps = finishes steps + draft.opened.length
  node_eq : ∀ {before kind span loc behind}, steps = before ++ .start kind span loc :: behind →
    ∃ node, draft.nodes[starts before]? = some node ∧
      Records node kind span loc (holesWithin behind)
  opened_iff : ∀ {before kind span loc behind}, steps = before ++ .start kind span loc :: behind →
    ∀ height, draft.opened[height]? = some (starts before) ↔ Rises behind height

theorem starts_lt_of_split {steps before behind : List Step} {kind : NodeKind} {span : Span}
    {loc : Location} (split : steps = before ++ .start kind span loc :: behind) :
    starts before < starts steps := by
  have joined : steps = before ++ [.start kind span loc] ++ behind := by simp [split]
  rw [joined, starts_append, starts_start]
  omega

section Reflecting

variable {steps : List Step} {draft after : Draft}

theorem reflects_empty : Reflects [] empty where
  size_eq := rfl
  opened_eq := rfl
  node_eq split := by simp at split
  opened_iff split := by simp at split

theorem reflects_start (reflects : Reflects steps draft) (kind : NodeKind) (span : Span)
    (loc : Location) : Reflects (steps ++ [.start kind span loc]) (draft.push kind span loc) where
  size_eq := by
    rw [starts_start, ← reflects.size_eq]
    exact size_adopt _ _
  opened_eq := by
    have count := reflects.opened_eq
    simp only [starts_start, finishes_start, push, List.length_cons]
    omega
  node_eq {before _ _ _ _} split := by
    rw [push, getElem?_adopt]
    rcases append_singleton_eq_iff.1 split with ⟨rfl, rfl, same⟩ | ⟨rest, rfl, old⟩
    · cases same
      rw [if_pos reflects.size_eq.symm]
      exact ⟨_, rfl, rfl, rfl, rfl, rfl⟩
    · obtain ⟨node, found, records⟩ := reflects.node_eq old
      have earlier := starts_lt_of_split old
      have holes : holesWithin (rest ++ [.start kind span loc]) = holesWithin rest := by
        simp [holesWithin_append_singleton, Step.holeCount]
      rw [if_neg (by rw [reflects.size_eq]; omega), found, holes]
      split
      · exact ⟨_, rfl, records.kind_eq, records.span_eq, records.loc_eq, records.holes_eq⟩
      · exact ⟨node, rfl, records⟩
  opened_iff {before _ _ _ _} split height := by
    rw [push]
    rcases append_singleton_eq_iff.1 split with ⟨rfl, rfl, -⟩ | ⟨rest, rfl, old⟩
    · rw [rises_nil_iff, ← reflects.size_eq]
      cases height with
      | zero => simp
      | succ lower =>
        -- The new node stands nowhere else among the open ones.
        have elsewhere : draft.opened[lower]? ≠ some draft.nodes.size := by
          intro found
          have bound := draft.opened_lt _ (List.mem_of_getElem? found)
          omega
        simp [elsewhere]
    · have earlier := starts_lt_of_split old
      have distinct : draft.nodes.size ≠ starts before := by
        rw [reflects.size_eq]
        exact Nat.ne_of_gt earlier
      rw [rises_start_iff]
      cases height with
      | zero => simp [distinct]
      | succ lower => simp [reflects.opened_iff old]

theorem reflects_holes (reflects : Reflects steps draft) {count innermost : Nat}
    {outer : List Nat} (opened : draft.opened = innermost :: outer)
    (nodes : after.nodes = draft.nodes.modify innermost (withHoles · count))
    (stays : after.opened = draft.opened) : Reflects (steps ++ [.holes count]) after where
  size_eq := by
    rw [nodes, Array.size_modify, starts_holes]
    exact reflects.size_eq
  opened_eq := by
    rw [stays, starts_holes, finishes_holes]
    exact reflects.opened_eq
  node_eq {before _ _ _ _} split := by
    rcases append_singleton_eq_iff.1 split with ⟨-, -, other⟩ | ⟨rest, rfl, old⟩
    · contradiction
    · obtain ⟨node, found, records⟩ := reflects.node_eq old
      -- The node is the innermost open one just when all behind its start is balanced.
      have isInnermost : innermost = starts before ↔ Balanced rest := by
        rw [balanced_iff_rises, ← reflects.opened_iff old 0, opened]
        simp
      rw [nodes, Array.getElem?_modify, found, holesWithin_append_singleton]
      by_cases balanced : Balanced rest
      · rw [if_pos (isInnermost.2 balanced), if_pos balanced]
        refine ⟨_, rfl, records.kind_eq, records.span_eq, records.loc_eq, ?_⟩
        exact congrArg (· + count) records.holes_eq
      · rw [if_neg (mt isInnermost.1 balanced), if_neg balanced]
        exact ⟨node, rfl, records⟩
  opened_iff {before _ _ _ _} split height := by
    rcases append_singleton_eq_iff.1 split with ⟨-, -, other⟩ | ⟨rest, rfl, old⟩
    · contradiction
    · rw [stays, rises_holes_iff]
      exact reflects.opened_iff old height

theorem reflects_finish (reflects : Reflects steps draft) {innermost : Nat} {outer : List Nat}
    (opened : draft.opened = innermost :: outer) (nodes : after.nodes = draft.nodes)
    (left : after.opened = outer) : Reflects (steps ++ [.finish]) after where
  size_eq := by
    rw [nodes, starts_finish]
    exact reflects.size_eq
  opened_eq := by
    have count := reflects.opened_eq
    rw [opened, List.length_cons] at count
    rw [left, starts_finish, finishes_finish]
    omega
  node_eq {before _ _ _ _} split := by
    rcases append_singleton_eq_iff.1 split with ⟨-, -, other⟩ | ⟨rest, rfl, old⟩
    · contradiction
    · have holes : holesWithin (rest ++ [.finish]) = holesWithin rest := by
        simp [holesWithin_append_singleton, Step.holeCount]
      rw [nodes, holes]
      exact reflects.node_eq old
  opened_iff {before _ _ _ _} split height := by
    rcases append_singleton_eq_iff.1 split with ⟨-, -, other⟩ | ⟨rest, rfl, old⟩
    · contradiction
    · rw [left, rises_finish_iff, ← reflects.opened_iff old, opened]
      simp

theorem reflects_step {step : Step} (reflects : Reflects steps draft)
    (h : draft.step step = .ok after) : Reflects (steps ++ [step]) after := by
  rcases step_cases h with ⟨kind, span, loc, rfl, -, rfl⟩ |
    ⟨count, innermost, outer, rfl, opened, nodes, stays⟩ |
    ⟨innermost, outer, rfl, opened, nodes, left⟩
  · exact reflects_start reflects kind span loc
  · exact reflects_holes reflects opened nodes stays
  · exact reflects_finish reflects opened nodes left

theorem run_concat_eq_ok_iff {step : Step} :
    empty.run (steps ++ [step]) = .ok after ↔
      ∃ draft, empty.run steps = .ok draft ∧ draft.step step = .ok after := by
  rw [run_append_eq_ok_iff]
  apply exists_congr
  intro draft
  rw [run_cons_eq_ok_iff]
  simp [run_nil_eq_ok_iff]

theorem reflects_of_run (h : empty.run steps = .ok draft) : Reflects steps draft := by
  induction steps using List.reverseRecOn generalizing draft with
  | nil =>
    obtain rfl := run_nil_eq_ok_iff.1 h
    exact reflects_empty
  | append_singleton steps step ih =>
    obtain ⟨before, ran, taken⟩ := run_concat_eq_ok_iff.1 h
    exact reflects_step (ih ran) taken

theorem Reflects.leavesOpen_iff (reflects : Reflects steps draft) :
    LeavesOpen steps ↔ draft.opened ≠ [] := by
  have count := reflects.opened_eq
  rw [LeavesOpen, ← List.length_pos_iff]
  omega

/-- A step that follows others fails just when something is wrong with it there. -/
theorem Reflects.step_eq_error_iff (reflects : Reflects steps draft) {step : Step}
    {misuse : Misuse} : draft.step step = .error misuse ↔ Offends steps step misuse := by
  have isOpen := reflects.leavesOpen_iff
  constructor
  · intro failed
    cases step with
    | start kind span loc =>
      simp only [Draft.step, start] at failed
      split at failed
      · next forbidden =>
        cases failed
        rw [Bool.and_eq_true, List.isEmpty_iff] at forbidden
        refine .start (fun leaves => isOpen.1 leaves forbidden.1) ?_ kind span loc
        rw [← reflects.size_eq]
        simpa [Nat.pos_iff_ne_zero] using forbidden.2
      · contradiction
    | holes count =>
      simp only [Draft.step, addHoles] at failed
      split at failed
      · next nothing =>
        cases failed
        exact .holes (fun leaves => isOpen.1 leaves nothing) count
      · contradiction
    | finish =>
      simp only [Draft.step, finish] at failed
      split at failed
      · next nothing =>
        cases failed
        exact .finish fun leaves => isOpen.1 leaves nothing
      · contradiction
  · intro offends
    cases offends with
    | start closed earlier kind span loc =>
      have nothing : draft.opened = [] := not_not.1 (mt isOpen.2 closed)
      rw [← reflects.size_eq] at earlier
      have nodes : draft.nodes ≠ #[] := Array.size_pos_iff.1 earlier
      simp [Draft.step, start, nothing, nodes, Except.map]
    | holes closed count =>
      have nothing : draft.opened = [] := not_not.1 (mt isOpen.2 closed)
      simp only [Draft.step, addHoles]
      split
      · rfl
      · next innermost outer opened => rw [nothing] at opened; contradiction
    | finish closed =>
      have nothing : draft.opened = [] := not_not.1 (mt isOpen.2 closed)
      simp only [Draft.step, finish]
      split
      · rfl
      · next innermost outer opened => rw [nothing] at opened; contradiction

theorem Reflects.complete_eq_error_iff (reflects : Reflects steps draft) {misuse : Misuse} :
    draft.complete = .error misuse ↔ Lacks steps misuse := by
  have count := reflects.opened_eq
  have size := reflects.size_eq
  unfold complete
  constructor
  · intro failed
    split at failed
    · next closed =>
      split at failed
      · contradiction
      · next nothing =>
        cases failed
        exact .emptyTree (by omega)
    · next leaves =>
      cases failed
      rw [List.isEmpty_iff, ← List.length_eq_zero_iff] at leaves
      exact .unfinished (by omega) count
  · intro lacks
    cases lacks with
    | unfinished positive left =>
      have open' : draft.opened.length = _ := Nat.add_left_cancel (count.symm.trans left)
      rw [if_neg, open']
      rw [List.isEmpty_iff, ← List.length_eq_zero_iff]
      omega
    | emptyTree nothing =>
      have closed : draft.opened.length = 0 := by omega
      rw [if_pos (List.isEmpty_iff.2 (List.length_eq_zero_iff.1 closed)), dif_neg (by omega)]

end Reflecting

section Runs

variable {steps : List Step}

theorem blameless_concat_iff {step : Step} :
    Blameless (steps ++ [step]) ↔ Blameless steps ∧ ∀ misuse, ¬Offends steps step misuse := by
  constructor
  · intro blameless
    refine ⟨fun before other after misuse split => ?_, fun misuse => ?_⟩
    · exact blameless before other (after ++ [step]) misuse (by simp [split])
    · exact blameless steps step [] misuse rfl
  · rintro ⟨blameless, last⟩ before other after misuse split
    rcases append_singleton_eq_iff.1 split with ⟨-, rfl, rfl⟩ | ⟨rest, -, old⟩
    · exact last misuse
    · exact blameless before other rest misuse old

theorem exists_run_iff : (∃ draft, empty.run steps = .ok draft) ↔ Blameless steps := by
  induction steps using List.reverseRecOn with
  | nil =>
    refine ⟨fun _ before step after misuse split => ?_, fun _ => ⟨empty, rfl⟩⟩
    simp at split
  | append_singleton steps step ih =>
    rw [blameless_concat_iff, ← ih]
    constructor
    · rintro ⟨after, ran⟩
      obtain ⟨draft, reached, taken⟩ := run_concat_eq_ok_iff.1 ran
      refine ⟨⟨draft, reached⟩, fun misuse offends => ?_⟩
      rw [(reflects_of_run reached).step_eq_error_iff.2 offends] at taken
      contradiction
    · rintro ⟨⟨draft, reached⟩, allowed⟩
      cases taken : draft.step step with
      | error misuse =>
        exact absurd ((reflects_of_run reached).step_eq_error_iff.1 taken) (allowed misuse)
      | ok after => exact ⟨after, run_concat_eq_ok_iff.2 ⟨draft, reached, taken⟩⟩

theorem failsAt_iff {step : Step} {misuse : Misuse} :
    FailsAt steps step misuse ↔ Blameless steps ∧ Offends steps step misuse := by
  constructor
  · rintro ⟨draft, ran, failed⟩
    exact ⟨exists_run_iff.1 ⟨draft, ran⟩, (reflects_of_run ran).step_eq_error_iff.1 failed⟩
  · rintro ⟨blameless, offends⟩
    obtain ⟨draft, ran⟩ := exists_run_iff.2 blameless
    exact ⟨draft, ran, (reflects_of_run ran).step_eq_error_iff.2 offends⟩

theorem failsAtEnd_iff {misuse : Misuse} :
    FailsAtEnd steps misuse ↔ Blameless steps ∧ Lacks steps misuse := by
  constructor
  · rintro ⟨draft, ran, failed⟩
    exact ⟨exists_run_iff.1 ⟨draft, ran⟩, (reflects_of_run ran).complete_eq_error_iff.1 failed⟩
  · rintro ⟨blameless, lacks⟩
    obtain ⟨draft, ran⟩ := exists_run_iff.2 blameless
    exact ⟨draft, ran, (reflects_of_run ran).complete_eq_error_iff.2 lacks⟩

theorem run_eq_error_iff {draft : Draft} {misuse : Misuse} :
    draft.run steps = .error misuse ↔
      ∃ before step after reached, steps = before ++ step :: after ∧
        draft.run before = .ok reached ∧ reached.step step = .error misuse := by
  induction steps generalizing draft with
  | nil => simp [run, pure, Except.pure]
  | cons step rest ih =>
    constructor
    · intro failed
      cases taken : draft.step step with
      | error cause =>
        have same : cause = misuse := by
          simpa [run, List.foldlM_cons, taken, bind, Except.bind] using failed
        exact ⟨[], step, rest, draft, rfl, rfl, same ▸ taken⟩
      | ok next =>
        have later : next.run rest = .error misuse := by
          simpa [run, List.foldlM_cons, taken, bind, Except.bind] using failed
        obtain ⟨before, other, after, reached, rfl, ran, stuck⟩ := ih.1 later
        exact ⟨step :: before, other, after, reached, rfl,
          run_cons_eq_ok_iff.2 ⟨next, taken, ran⟩, stuck⟩
    · rintro ⟨before, other, after, reached, split, ran, stuck⟩
      cases before with
      | nil =>
        obtain ⟨rfl, rfl⟩ := List.cons.inj split
        obtain rfl := run_nil_eq_ok_iff.1 ran
        simp [run, List.foldlM_cons, stuck, bind, Except.bind]
      | cons first before =>
        obtain ⟨rfl, same⟩ := List.cons.inj split
        obtain ⟨next, taken, ran⟩ := run_cons_eq_ok_iff.1 ran
        have later : next.run rest = .error misuse :=
          ih.2 ⟨before, other, after, reached, same, ran, stuck⟩
        simpa [run, List.foldlM_cons, taken, bind, Except.bind] using later

theorem build_eq_error_iff {misuse : Misuse} :
    build steps = .error misuse ↔
      (∃ before step after, steps = before ++ step :: after ∧ FailsAt before step misuse) ∨
        FailsAtEnd steps misuse := by
  cases ran : empty.run steps with
  | error cause =>
    obtain ⟨before, step, after, reached, split, reaches, stuck⟩ := run_eq_error_iff.1 ran
    constructor
    · intro failed
      have same : cause = misuse := by simpa [build, ran, bind, Except.bind] using failed
      exact .inl ⟨before, step, after, split, reached, reaches, same ▸ stuck⟩
    · rintro (⟨first, other, rest, parts, draft, reaches', stuck'⟩ | ⟨draft, completes, -⟩)
      · rw [run_eq_error_iff.2 ⟨first, other, rest, draft, parts, reaches', stuck'⟩] at ran
        obtain rfl := Except.error.inj ran
        simp [build, run_eq_error_iff.2 ⟨before, step, after, reached, split, reaches, stuck⟩,
          bind, Except.bind]
      · rw [ran] at completes
        contradiction
  | ok draft =>
    rw [build_of_run ran]
    constructor
    · intro failed
      exact .inr ⟨draft, ran, failed⟩
    · rintro (⟨first, other, rest, parts, reached, reaches, stuck⟩ | ⟨other, ran', failed⟩)
      · rw [run_eq_error_iff.2 ⟨first, other, rest, reached, parts, reaches, stuck⟩] at ran
        contradiction
      · rw [ran] at ran'
        obtain rfl := Except.ok.inj ran'
        exact failed

theorem blameless_of_singleTree (single : SingleTree steps) : Blameless steps := by
  obtain ⟨⟨word, same, nonempty, inside⟩, holes⟩ := single
  rintro before step after misuse rfl offends
  have closed : ¬LeavesOpen before := by cases offends <;> assumption
  -- In front of a bracket of the word the depth is positive, unless the bracket is the first.
  have first {bracket : DyckStep} (isBracket : step.bracket? = some bracket) :
      brackets before = [] ∧ word.toList = bracket :: brackets after := by
    have whole : word.toList = brackets before ++ bracket :: brackets after := by
      rw [same, brackets, List.filterMap_append, List.filterMap_cons_some isBracket]
      rfl
    by_cases nothing : brackets before = []
    · rw [nothing] at whole
      exact ⟨nothing, whole⟩
    · have positive := inside (i := (brackets before).length) (List.length_pos_iff.2 nothing)
        (by simp [whole])
      rw [whole, List.take_left' rfl] at positive
      exact absurd positive closed
  cases offends with
  | finish =>
    have fronts := word.count_D_le_count_U 1
    simp [(first rfl).2] at fronts
  | holes closed count => exact closed (holes before count after rfl)
  | start closed earlier kind span loc =>
    rw [starts, (first rfl).1] at earlier
    contradiction

theorem finishes_le_starts_of_blameless (blameless : Blameless steps)
    {front behind : List Step} (split : steps = front ++ behind) :
    finishes front ≤ starts front := by
  have frontBlameless : Blameless front := by
    intro before step after misuse parts
    exact blameless before step (after ++ behind) misuse (by simp [split, parts])
  obtain ⟨draft, ran⟩ := exists_run_iff.2 frontBlameless
  have count := (reflects_of_run ran).opened_eq
  omega

theorem exists_step_of_bracket {length : Nat} (bound : length < (brackets steps).length) :
    ∃ before step after bracket, steps = before ++ step :: after ∧
      step.bracket? = some bracket ∧ brackets before = (brackets steps).take length := by
  obtain ⟨front, behind, rfl, isFront, isBehind⟩ := exists_take_brackets steps length
  have more : brackets behind ≠ [] := by
    rw [isBehind]
    simpa using bound
  obtain ⟨bracket, others, isCons⟩ := List.exists_cons_of_ne_nil more
  obtain ⟨silent, step, after, rfl, noBrackets, isBracket, -⟩ := List.filterMap_eq_cons_iff.1 isCons
  refine ⟨front ++ silent, step, after, bracket, by simp, isBracket, ?_⟩
  rw [← isFront, brackets, List.filterMap_append, List.filterMap_eq_nil_iff.2 noBrackets]
  exact List.append_nil _

theorem brackets_eq_nil (noStart : starts steps = 0) (noFinish : finishes steps = 0) :
    brackets steps = [] := by
  apply List.eq_nil_iff_forall_not_mem.2
  intro bracket member
  cases bracket with
  | U => exact List.count_eq_zero.1 noStart member
  | D => exact List.count_eq_zero.1 noFinish member

theorem leavesOpen_of_bracket (blameless : Blameless steps) {before after : List Step}
    {step : Step} {bracket : DyckStep} (split : steps = before ++ step :: after)
    (isBracket : step.bracket? = some bracket) (notFirst : brackets before ≠ []) :
    LeavesOpen before := by
  by_contra closed
  have order := finishes_le_starts_of_blameless blameless split
  have started : 0 < starts before := by
    by_contra none
    rw [LeavesOpen] at closed
    exact notFirst (brackets_eq_nil (by omega) (by omega))
  cases step with
  | start kind span loc =>
    exact blameless before _ after .secondRoot split (.start closed started kind span loc)
  | holes count => contradiction
  | finish => exact blameless before _ after .nothingOpen split (.finish closed)

theorem singleTree_of_blameless (blameless : Blameless steps)
    (balanced : starts steps = finishes steps) (nonempty : 0 < starts steps) :
    SingleTree steps := by
  have fronts (length : Nat) : ((brackets steps).take length).count .D ≤
      ((brackets steps).take length).count .U := by
    obtain ⟨front, behind, split, isFront, -⟩ := exists_take_brackets steps length
    rw [← isFront]
    exact finishes_le_starts_of_blameless blameless split
  refine ⟨⟨⟨brackets steps, balanced, fronts⟩, rfl, ?_, ?_⟩, ?_⟩
  · intro nothing
    have noBrackets : brackets steps = [] := DyckWord.toList_eq_nil.2 nothing
    rw [starts, noBrackets] at nonempty
    contradiction
  · intro length positive bound
    obtain ⟨before, step, after, bracket, split, isBracket, isTaken⟩ :=
      exists_step_of_bracket bound
    have notFirst : brackets before ≠ [] := by
      rw [isTaken]
      intro nothing
      rcases List.take_eq_nil_iff.1 nothing with zero | none
      · omega
      · exact absurd bound (by simp [none])
    have leaves := leavesOpen_of_bracket blameless split isBracket notFirst
    rw [LeavesOpen, finishes, starts, isTaken] at leaves
    exact leaves
  · intro before count after split
    by_contra closed
    exact blameless before (.holes count) after .nothingOpen split (.holes closed count)

/-- Building succeeds just when no step is wrong and nothing is lacking, which is to say when the
brackets are one balanced pair. -/
theorem exists_build_iff : (∃ tree, build steps = .ok tree) ↔ SingleTree steps := by
  constructor
  · rintro ⟨tree, built⟩
    obtain ⟨draft, ran, completed⟩ := run_of_build built
    obtain ⟨closed, nodes⟩ := nodes_of_complete completed
    have reflects := reflects_of_run ran
    have count := reflects.opened_eq
    have size := reflects.size_eq
    have nonempty := tree.nonempty
    rw [closed, List.length_nil] at count
    rw [nodes] at size
    exact singleTree_of_blameless (exists_run_iff.1 ⟨draft, ran⟩) (by omega) (by omega)
  · intro single
    have blameless := blameless_of_singleTree single
    obtain ⟨⟨word, same, nonempty, -⟩, -⟩ := single
    cases built : build steps with
    | ok tree => exact ⟨tree, rfl⟩
    | error misuse =>
      rcases build_eq_error_iff.1 built with ⟨before, step, after, split, failed⟩ | failed
      · exact absurd (failsAt_iff.1 failed).2 (blameless before step after misuse split)
      · have balanced : starts steps = finishes steps := by
          rw [starts, finishes, ← same]
          exact word.count_U_eq_count_D
        cases (failsAtEnd_iff.1 failed).2 with
        | unfinished positive left => omega
        | emptyTree nothing =>
          have noBrackets := brackets_eq_nil nothing (balanced.symm.trans nothing)
          rw [← same] at noBrackets
          exact absurd (DyckWord.toList_eq_nil.1 noBrackets) nonempty

theorem exists_start_of_lt {index : Nat} (bound : index < starts steps) :
    ∃ before kind span loc behind, steps = before ++ .start kind span loc :: behind ∧
      starts before = index := by
  induction steps using List.reverseRecOn with
  | nil => simp [starts, brackets] at bound
  | append_singleton steps step ih =>
    by_cases earlier : index < starts steps
    · obtain ⟨before, kind, span, loc, behind, rfl, count⟩ := ih earlier
      exact ⟨before, kind, span, loc, behind ++ [step], by simp, count⟩
    · cases step with
      | start kind span loc =>
        rw [starts_start] at bound
        exact ⟨steps, kind, span, loc, [], rfl, by omega⟩
      | holes count => exact absurd (starts_holes steps count ▸ bound) earlier
      | finish => exact absurd (starts_finish steps ▸ bound) earlier

/-- Each node of a built tree comes from a start, which it is numbered by, and has the holes that
were counted while it was the innermost open node. -/
theorem exists_start_of_build {tree : Tree} (built : build steps = .ok tree) (id : tree.Id) :
    ∃ before kind span loc behind, steps = before ++ .start kind span loc :: behind ∧
      starts before = id.val ∧ Records (tree.node id) kind span loc (holesWithin behind) := by
  obtain ⟨draft, ran, completed⟩ := run_of_build built
  have reflects := reflects_of_run ran
  have nodes := (nodes_of_complete completed).2
  have bound : id.val < starts steps := by
    rw [← reflects.size_eq, nodes]
    exact id.isLt
  obtain ⟨before, kind, span, loc, behind, split, number⟩ := exists_start_of_lt bound
  obtain ⟨node, found, records⟩ := reflects.node_eq split
  rw [number, nodes, tree.getElem?_nodes] at found
  obtain rfl := Option.some.inj found
  exact ⟨before, kind, span, loc, behind, split, number, records⟩

end Runs

/-- Building accepts steps whose brackets are one balanced pair, with the holes inside it, and no
others.  It fails at the first step that is wrong where it stands, or, when there is none, at the
end for what is lacking; in the tree each node has the holes counted while it was the innermost
open node. -/
theorem build_accepts_single_tree (steps : List Step) :
    ((∃ tree, build steps = .ok tree) ↔ SingleTree steps) ∧
    (∀ misuse, build steps = .error misuse ↔
      (∃ before step after, steps = before ++ step :: after ∧ FailsAt before step misuse) ∨
        FailsAtEnd steps misuse) ∧
    (∀ before step misuse,
      FailsAt before step misuse ↔ Blameless before ∧ Offends before step misuse) ∧
    (∀ misuse, FailsAtEnd steps misuse ↔ Blameless steps ∧ Lacks steps misuse) ∧
    (Misuse.nothingOpen.message = "no opened nodes?" ∧
      Misuse.secondRoot.message = "the tree already has a root" ∧
      (∀ count, (Misuse.unfinished count).message = "unfinished nodes: " ++ toString count) ∧
      Misuse.emptyTree.message = "cannot finish an empty tree") ∧
    ∀ tree, build steps = .ok tree → ∀ id : tree.Id,
      ∃ before kind span loc behind, steps = before ++ .start kind span loc :: behind ∧
        starts before = id.val ∧ Records (tree.node id) kind span loc (holesWithin behind) :=
  ⟨exists_build_iff, fun _ => build_eq_error_iff, fun _ _ _ => failsAt_iff,
    fun _ => failsAtEnd_iff, ⟨rfl, rfl, fun _ => rfl, rfl⟩, fun _ => exists_start_of_build⟩

/-- One hole in front of an element and two behind it; those of the element itself and those behind
the end of the node are not among them. -/
example : holesWithin [.holes 1, .start .identifier (.ofWidth 3 1) .zero, .holes 5, .finish,
    .holes 2, .finish, .holes 7] = 3 := by decide

end AnnotatedSource.Draft
