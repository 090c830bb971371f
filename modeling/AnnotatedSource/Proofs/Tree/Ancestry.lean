import AnnotatedSource.Proofs.Tree.Built

/-!
The nodes above a node.  They form a chain of parents, so what is above an ancestor is above the
node too; two nodes of a built tree of which neither is above the other descend from two children of
one node.
-/

set_option autoImplicit false
set_option relaxedAutoImplicit false

namespace AnnotatedSource.Tree

variable {tree : Tree}

theorem ancestors_of_parent? {id parent : tree.Id} (h : tree.parent? id = some parent) :
    tree.ancestors id = parent :: tree.ancestors parent := by
  rw [ancestors]
  split
  · next none => rw [h] at none; contradiction
  · next found hfound =>
    obtain rfl := Option.some.inj (h.symm.trans hfound)
    rfl

theorem ancestors_eq_nil {id : tree.Id} (h : tree.parent? id = none) : tree.ancestors id = [] := by
  rw [ancestors]
  split
  · rfl
  · next found hfound => rw [h] at hfound; contradiction

theorem mem_lineage_iff {id above : tree.Id} :
    above ∈ tree.lineage id ↔ above = id ∨ above ∈ tree.ancestors id :=
  List.mem_cons

theorem mem_ancestors_iff {id above : tree.Id} :
    above ∈ tree.ancestors id ↔
      ∃ parent, tree.parent? id = some parent ∧ above ∈ tree.lineage parent := by
  cases h : tree.parent? id with
  | none => simp [ancestors_eq_nil h]
  | some parent => simp [ancestors_of_parent? h, lineage]

theorem mem_ancestors_of_parent? {id parent : tree.Id} (h : tree.parent? id = some parent) :
    parent ∈ tree.ancestors id :=
  mem_ancestors_iff.2 ⟨parent, h, List.mem_cons_self⟩

theorem parent_induction {property : tree.Id → Prop}
    (top : ∀ id, tree.parent? id = none → property id)
    (below : ∀ id parent, tree.parent? id = some parent → property parent → property id)
    (id : tree.Id) : property id := by
  fun_induction ancestors tree id with
  | case1 id none => exact top id none
  | case2 id parent found order ih => exact below id parent found ih

theorem child_induction {property : tree.Id → Prop}
    (above : ∀ id, (∀ child ∈ tree.children id, property child) → property id)
    (id : tree.Id) : property id :=
  above id fun child member =>
    have : tree.room child < tree.room id := room_lt member
    child_induction above child
termination_by tree.room id

theorem lt_of_mem_ancestors {id above : tree.Id} (h : above ∈ tree.ancestors id) : above < id := by
  induction id using parent_induction with
  | top id none =>
    rw [ancestors_eq_nil none] at h
    contradiction
  | below id parent found ih =>
    have order := parent_lt found
    rw [ancestors_of_parent? found] at h
    rcases List.mem_cons.1 h with rfl | higher
    · exact order
    · exact Fin.lt_trans (ih higher) order

theorem ancestors_eq_of_append {id above : tree.Id} {front rest : List tree.Id}
    (h : tree.ancestors id = front ++ above :: rest) : tree.ancestors above = rest := by
  induction id using parent_induction generalizing front with
  | top id none =>
    rw [ancestors_eq_nil none] at h
    simp at h
  | below id parent found ih =>
    rw [ancestors_of_parent? found] at h
    cases front with
    | nil =>
      obtain ⟨rfl, same⟩ := List.cons.inj h
      exact same
    | cons first front => exact ih (List.cons.inj h).2

def depth (tree : Tree) (id : tree.Id) : Nat := (tree.ancestors id).length

theorem depth_of_parent? {id parent : tree.Id} (h : tree.parent? id = some parent) :
    tree.depth id = tree.depth parent + 1 := by
  rw [depth, ancestors_of_parent? h]
  rfl

theorem depth_root (tree : Tree) : tree.depth tree.root = 0 := by
  rw [depth, ancestors_eq_nil tree.parent?_root]
  rfl

theorem depth_lt_of_mem_ancestors {id above : tree.Id} (h : above ∈ tree.ancestors id) :
    tree.depth above < tree.depth id := by
  obtain ⟨front, rest, chain⟩ := List.append_of_mem h
  rw [depth, depth, ancestors_eq_of_append chain, chain, List.length_append, List.length_cons]
  omega

theorem mem_front_iff {id above other : tree.Id} {front rest : List tree.Id}
    (chain : tree.ancestors id = front ++ above :: rest) :
    other ∈ front ↔ other ∈ tree.ancestors id ∧ above ∈ tree.ancestors other := by
  constructor
  · intro member
    obtain ⟨before, after, rfl⟩ := List.append_of_mem member
    rw [List.append_assoc, List.cons_append] at chain
    rw [ancestors_eq_of_append chain, chain]
    exact ⟨List.mem_append_right _ List.mem_cons_self,
      List.mem_append_right _ List.mem_cons_self⟩
  · rintro ⟨member, higher⟩
    have order := lt_of_mem_ancestors higher
    rw [chain] at member
    rcases List.mem_append.1 member with inFront | behind
    · exact inFront
    · rcases List.mem_cons.1 behind with rfl | later
      · exact absurd order (Fin.lt_irrefl _)
      · rw [← ancestors_eq_of_append chain] at later
        exact absurd order (Fin.lt_asymm (lt_of_mem_ancestors later))

theorem above_or_eq_or_above {id first second : tree.Id} (hfirst : first ∈ tree.ancestors id)
    (hsecond : second ∈ tree.ancestors id) :
    first ∈ tree.ancestors second ∨ first = second ∨ second ∈ tree.ancestors first := by
  obtain ⟨front, rest, chain⟩ := List.append_of_mem hsecond
  have member := hfirst
  rw [chain] at member
  rcases List.mem_append.1 member with inFront | behind
  · exact .inr (.inr ((mem_front_iff chain).1 inFront).2)
  · rcases List.mem_cons.1 behind with same | inRest
    · exact .inr (.inl same)
    · rw [← ancestors_eq_of_append chain] at inRest
      exact .inl inRest

theorem exists_child_of_mem_ancestors {id above : tree.Id} (h : above ∈ tree.ancestors id) :
    ∃ child ∈ tree.lineage id, tree.parent? child = some above := by
  induction id using parent_induction with
  | top id none =>
    rw [ancestors_eq_nil none] at h
    contradiction
  | below id parent found ih =>
    rw [ancestors_of_parent? found] at h
    rcases List.mem_cons.1 h with rfl | higher
    · exact ⟨id, List.mem_cons_self, found⟩
    · obtain ⟨child, member, isParent⟩ := ih higher
      refine ⟨child, List.mem_cons_of_mem id ?_, isParent⟩
      rw [ancestors_of_parent? found]
      exact member

theorem mem_lineage_of_parent? {id parent above : tree.Id} (h : tree.parent? id = some parent)
    (member : above ∈ tree.lineage parent) : above ∈ tree.lineage id :=
  List.mem_cons_of_mem id (mem_ancestors_iff.2 ⟨parent, h, member⟩)

theorem mem_lineage_trans {id middle above : tree.Id} (lower : middle ∈ tree.lineage id)
    (upper : above ∈ tree.lineage middle) : above ∈ tree.lineage id := by
  rcases mem_lineage_iff.1 lower with rfl | strictly
  · exact upper
  · obtain ⟨front, rest, chain⟩ := List.append_of_mem strictly
    rw [lineage, ancestors_eq_of_append chain] at upper
    rw [lineage, chain]
    exact List.mem_cons_of_mem id (List.mem_append_right front upper)

theorem le_of_mem_lineage {id above : tree.Id} (h : above ∈ tree.lineage id) : above ≤ id := by
  rcases mem_lineage_iff.1 h with rfl | higher
  · exact Fin.le_refl _
  · exact Fin.le_of_lt (lt_of_mem_ancestors higher)

theorem mem_lineage_or_mem_lineage {id first second : tree.Id} (hfirst : first ∈ tree.lineage id)
    (hsecond : second ∈ tree.lineage id) :
    first ∈ tree.lineage second ∨ second ∈ tree.lineage first := by
  rcases mem_lineage_iff.1 hfirst with rfl | firstAbove
  · exact .inr hsecond
  · rcases mem_lineage_iff.1 hsecond with rfl | secondAbove
    · exact .inl hfirst
    · rcases above_or_eq_or_above firstAbove secondAbove with above | rfl | below
      · exact .inl (mem_lineage_iff.2 (.inr above))
      · exact .inl List.mem_cons_self
      · exact .inr (mem_lineage_iff.2 (.inr below))

theorem eq_or_mem_lineage_of_between {id child top above : tree.Id}
    (isParent : tree.parent? child = some top) (lower : child ∈ tree.lineage id)
    (inside : above ∈ tree.lineage id) (upper : top ∈ tree.lineage above) :
    above = top ∨ child ∈ tree.lineage above := by
  rcases mem_lineage_or_mem_lineage inside lower with higher | under
  · rcases mem_lineage_iff.1 higher with rfl | strictly
    · exact .inr List.mem_cons_self
    · rw [ancestors_of_parent? isParent] at strictly
      have order := le_of_mem_lineage upper
      have reverse : above ≤ top := le_of_mem_lineage strictly
      exact .inl (Fin.le_antisymm reverse order)
  · exact .inr under

theorem Built.root_mem_lineage (built : tree.Built) (id : tree.Id) :
    tree.root ∈ tree.lineage id := by
  induction id using parent_induction with
  | top id none =>
    rw [built.eq_root_of_parent? none]
    exact List.mem_cons_self
  | below id parent found ih => exact mem_lineage_of_parent? found ih

def Siblings (tree : Tree) (left right : tree.Id) : Prop :=
  left ≠ right ∧ ∃ parent, tree.parent? left = some parent ∧ tree.parent? right = some parent

/-- Of two nodes one is above the other or the same, or they descend from siblings. -/
theorem Built.kinship (built : tree.Built) (m n : tree.Id) :
    m ∈ tree.lineage n ∨ n ∈ tree.lineage m ∨
      ∃ left ∈ tree.lineage m, ∃ right ∈ tree.lineage n, tree.Siblings left right := by
  induction n using parent_induction with
  | top n none =>
    right; left
    rw [built.eq_root_of_parent? none]
    exact built.root_mem_lineage m
  | below n parent found ih =>
    rcases ih with above | below | ⟨left, hleft, right, hright, siblings⟩
    · exact .inl (mem_lineage_of_parent? found above)
    · rcases mem_lineage_iff.1 below with rfl | higher
      · exact .inl (mem_lineage_of_parent? found List.mem_cons_self)
      -- The parent of `n` is above `m`: either through `n` itself, or through a sibling of it.
      · obtain ⟨child, member, isParent⟩ := exists_child_of_mem_ancestors higher
        by_cases same : child = n
        · exact .inr (.inl (same ▸ member))
        · exact .inr (.inr ⟨child, member, n, List.mem_cons_self, same, parent, isParent, found⟩)
    · exact .inr (.inr ⟨left, hleft, right, mem_lineage_of_parent? found hright, siblings⟩)

end AnnotatedSource.Tree
